import Mathlib.Tactic
import ObjectMachine.Proofs.Program.Operations

/-! Evaluation is balanced.

A program that is evaluated pins operands in scopes it has opened, and what it calls is balanced.  By
induction on the program, then on the depth of calls, every program gives the stacks back as it found
them. -/

namespace ObjectMachine

open Effect Judgement

variable {inScope : Bool} {places : Set Nat}

/-! ### Registers -/

namespace Effect

theorem steady_getRegister (name : String) : Steady inScope places (getRegister name) := by
  refine (meets_ask _).bind fun session => ?_
  cases session.registerNames.idxOf? name with
  | none => exact meets_pure _
  | some place => exact (meets_read _ _).bind fun _ => meets_pure _

theorem steady_setRegister (name : String) (v : Value) :
    Steady inScope places (setRegister name v) := by
  refine (meets_ask _).bind fun session => ?_
  dsimp only
  split
  · exact (steady_setSession _).bind fun _ => steady_heedless.write _ _ _
  · exact (meets_pure _).bind fun _ => steady_heedless.write _ _ _

theorem steady_reportView (v : Value) : Steady inScope places (reportView v) :=
  (meets_ask _).bind fun _ => steady_report _

theorem steady_forCount {body : Nat → Effect Unit} (hbody : ∀ i, Steady inScope places (body i)) :
    ∀ remaining start, Steady inScope places (forCount body remaining start)
  | 0, _ => meets_pure _
  | remaining + 1, start => (hbody start).bind fun _ => steady_forCount hbody remaining (start + 1)

/-- A scope may overwrite its last handle: with operands pinned, that lies above those before it. -/
theorem steady_scope {operands : Effect (List Value)} {body : Effect Value}
    (hoperands : Steady true ∅ operands)
    (hgrows : ∀ {m vs m'}, operands m = .ok vs m' → m.handles.size + vs.length ≤ m'.handles.size)
    (hbody : Steady false ∅ body) :
    Steady false ∅ (withHandles do
      let vs ← operands
      let top ← ask (·.handles.size)
      report (.scope vs.length)
      let v ← body
      if vs.isEmpty then return v
      else
        setHandle (top - 1) v
        getHandle (top - 1)) := by
  refine Steady.withHandles fun m => ?_
  have hm := hoperands.balanced m
  show m.Balanced true ∅ (Effect.after _ m)
  cases h : operands m with
  | error u m' =>
    rw [after_of_error h] at hm
    rwa [after_bind_of_error h]
  | ok vs m' =>
    rw [after_of_ok h] at hm
    rw [after_bind_of_ok h]
    have hrest : Steady true { i | i = m'.handles.size - 1 ∧ vs.isEmpty = false } (do
        report (.scope vs.length)
        let v ← body
        if vs.isEmpty then return v
        else
          setHandle (m'.handles.size - 1) v
          getHandle (m'.handles.size - 1)) := by
      refine (steady_report _).bind fun _ => hbody.lift.bind fun v => ?_
      cases hvs : vs.isEmpty with
      | true => exact meets_pure v
      | false =>
        refine (steady_setHandle ?_ v).bind fun _ => meets_ask _
        exact ⟨rfl, rfl⟩
    refine hm.trans_above (hrest m') (by simp) fun i hi => Or.inr ?_
    have hsize := hgrows h
    have hvs : 0 < vs.length := List.length_pos_iff.mpr (List.isEmpty_eq_false_iff.mp hi.2)
    have hi' := hi.1
    omega

end Effect

namespace Program

variable {calls : Calls}

mutual

theorem steady_eval (hcalls : SteadyCalls calls) : ∀ p : Program, (p.eval calls).Steady false ∅
  | .constant v => by
    rw [eval]
    exact meets_pure v
  | .text s => by
    rw [eval]
    exact steady_heedless.makes.newText s
  | .bignum n => by
    rw [eval]
    exact steady_heedless.makes.newBignum n
  | .integer n => by
    rw [eval]
    exact steady_heedless.makes.newInteger n
  | .float x => by
    rw [eval]
    exact steady_heedless.makes.newFloat x
  | .symbol name => by
    rw [eval]
    exact steady_intern name
  | .register name => by
    rw [eval]
    exact steady_getRegister name
  | .global name => by
    rw [eval]
    exact (steady_getGlobal name).bind fun _ => meets_pure _
  | .weak name => by
    rw [eval]
    exact meets_ask _
  | .self => by
    rw [eval]
    exact meets_ask _
  | .argument index => by
    rw [eval]
    exact meets_ask _
  | .resource => by
    rw [eval]
    exact meets_ask _
  | .sequence steps => by
    rw [eval]
    exact steady_evalSteps hcalls .nil steps
  | .branch condition yes no => by
    rw [eval]
    refine (steady_eval hcalls condition).bind fun v => ?_
    split
    · exact steady_eval hcalls yes
    · exact steady_eval hcalls no
  | .iterate count target body => by
    rw [eval]
    refine (steady_forCount (fun i => ?_) count 0).bind fun _ => meets_pure _
    exact (steady_setRegister _ _).bind fun _ => (steady_eval hcalls body).bind fun _ => meets_pure _
  | .setRegister name body => by
    rw [eval]
    exact (steady_eval hcalls body).bind fun _ => (steady_setRegister _ _).bind fun _ => meets_pure _
  | .setWeak name body => by
    rw [eval]
    exact (steady_eval hcalls body).bind fun _ => (steady_setSession _).bind fun _ => meets_pure _
  | .note content => by
    rw [eval]
    exact (steady_report _).bind fun _ => meets_pure _
  | .observe body => by
    rw [eval]
    exact (steady_eval hcalls body).bind fun _ => (steady_reportView _).bind fun _ => meets_pure _
  | .apply op operands => by
    rw [eval]
    exact Steady.withHandles ((steady_evalOperands hcalls operands).bind fun vs => hcalls.operation op vs)
  | .defineMethod cls name arity body => by
    rw [eval]
    exact Steady.withHandles ((steady_eval hcalls cls).lift.bind fun c => (steady_pin c).bind fun _ =>
      (steady_defineMethod _ _).bind fun _ => meets_pure _)
  | .forEach table keyRegister valueRegister body => by
    rw [eval]
    refine Steady.withHandles ((steady_eval hcalls table).lift.bind fun t => (steady_pin t).bind fun _ => ?_)
    refine (Dictionary.steady_forEach (fun key v => ?_) _ _).bind fun _ => meets_pure _
    exact (steady_setRegister _ _).bind fun _ => (steady_setRegister _ _).bind fun _ =>
      (steady_eval hcalls body).lift.bind fun _ => meets_pure _
  | .frame kind name receiver body => by
    rw [eval]
    exact Steady.withHandles ((steady_eval hcalls receiver).lift.bind fun r => (steady_pin r).bind fun _ =>
      (steady_eval hcalls body).lift.callFrame hcalls.run _ _ _)
  | .frameValues name items => by
    rw [eval]
    refine Meets.bind ?_ fun vs => (meets_ask _).bind fun _ => (steady_report _).bind fun _ =>
      meets_pure _
    exact (Steady.withHandles (steady_evalOperands hcalls items)).callFrame hcalls.run _ _ _
  | .frameOption name body => by
    rw [eval]
    refine Meets.bind ?_ fun vs => (meets_ask _).bind fun _ => (steady_report _).bind fun _ =>
      meets_pure _
    exact Steady.callFrame hcalls.run ((steady_eval hcalls body).bind fun _ => meets_pure _) _ _ _
  | .framePair name body => by
    rw [eval]
    refine Meets.bind ?_ fun vs => (meets_ask _).bind fun _ => (steady_report _).bind fun _ =>
      meets_pure _
    exact Steady.callFrame hcalls.run ((steady_eval hcalls body).bind fun _ =>
      (meets_ask _).bind fun _ => meets_pure _) _ _ _
  | .cleanup guarded body => by
    rw [eval]
    exact Steady.withHandles ((steady_eval hcalls guarded).lift.bind fun r => (steady_pin r).bind fun _ =>
      (steady_addCleanup _).bind fun _ => meets_pure _)
  | .ensure body last => by
    rw [eval]
    exact Steady.callFrame hcalls.run ((steady_addCleanup _).bind fun _ => steady_eval hcalls body)
      _ _ _
  | .rescue classes body target handler => by
    rw [eval]
    refine Steady.withHandles ((steady_evalOperands hcalls classes).bind fun cs => ?_)
    exact (steady_eval hcalls body).lift.rescue (fun exc => (steady_setRegister _ _).bind fun _ =>
      (steady_eval hcalls handler).lift) cs
  | .execute name body => by
    rw [eval]
    refine Meets.bind ?_ fun t => ?_
    · rw [execute_eq]
      exact ((steady_eval hcalls body).callFrame hcalls.run _ _ _).outcome.bind fun r =>
        steady_terminate r
    refine (meets_ask _).bind fun _ => (steady_report _).bind fun _ => ?_
    split
    · exact meets_pure _
    · exact meets_pure _
  | .scope items body => by
    rw [eval]
    exact steady_scope (steady_evalOperands hcalls items) (evalOperands_grows hcalls items)
      (steady_eval hcalls body)

theorem steady_evalOperands (hcalls : SteadyCalls calls) :
    ∀ ps : List Program, (evalOperands calls ps).Steady true ∅
  | [] => by
    rw [evalOperands]
    exact meets_pure _
  | p :: rest => by
    rw [evalOperands]
    exact (steady_eval hcalls p).lift.bind fun v => (steady_pin v).bind fun _ =>
      (steady_evalOperands hcalls rest).bind fun _ => meets_pure _

theorem evalOperands_grows (hcalls : SteadyCalls calls) : ∀ (ps : List Program) {m : Machine}
    {vs : List Value} {m' : Machine}, evalOperands calls ps m = .ok vs m' →
      m.handles.size + vs.length ≤ m'.handles.size
  | [], m, vs, m', h => by
    rw [evalOperands] at h
    obtain ⟨rfl, rfl⟩ := EStateM.Result.ok.inj h
    exact le_rfl
  | p :: rest, m, vs, m', h => by
    rw [evalOperands] at h
    obtain ⟨v, m₁, hv, hpin⟩ := exists_of_bind_eq_ok h
    obtain ⟨place, m₂, hplace, hrest⟩ := exists_of_bind_eq_ok hpin
    obtain ⟨ws, m₃, hws, hvs⟩ := exists_of_bind_eq_ok hrest
    have hsize := (steady_eval hcalls p m).size_le
    have hgrows := evalOperands_grows hcalls rest hws
    rw [after_of_ok hv] at hsize
    obtain ⟨-, rfl⟩ := EStateM.Result.ok.inj hplace
    obtain ⟨rfl, rfl⟩ := EStateM.Result.ok.inj hvs
    simp only [Array.size_push] at hgrows
    rw [List.length_cons]
    omega

theorem steady_evalSteps (hcalls : SteadyCalls calls) : ∀ (last : Value) (ps : List Program),
    (evalSteps calls last ps).Steady false ∅
  | last, [] => by
    rw [evalSteps]
    exact meets_pure _
  | last, p :: rest => by
    rw [evalSteps]
    exact (steady_eval hcalls p).bind fun v => steady_evalSteps hcalls v rest

end

end Program

theorem Calls.steady_toDepth : ∀ depth : Nat, SteadyCalls (Calls.toDepth depth)
  | 0 => .exhausted
  | depth + 1 =>
    have hcalls := steady_toDepth depth
    ⟨fun receiver name args => hcalls.callMethod receiver name args, Program.steady_eval hcalls⟩

end ObjectMachine
