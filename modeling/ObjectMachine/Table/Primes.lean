/-! Bin counts: the first prime above each power of two from 8 upwards. -/

namespace ObjectMachine.Table

/-- The admissible bin counts, in increasing order. -/
def primes : List Nat :=
  [8 + 3, 16 + 3, 32 + 5, 64 + 3, 128 + 3, 256 + 27, 512 + 9, 1024 + 9, 2048 + 5, 4096 + 3,
    8192 + 27, 16384 + 43, 32768 + 3, 65536 + 45, 131072 + 29, 262144 + 3, 524288 + 21,
    1048576 + 7, 2097152 + 17, 4194304 + 15, 8388608 + 9, 16777216 + 43, 33554432 + 35,
    67108864 + 15, 134217728 + 29, 268435456 + 3, 536870912 + 11, 1073741824 + 85]

/-- The least admissible bin count. -/
def minBins : Nat := 11

/-- The greatest admissible bin count. -/
def maxBins : Nat := 1073741824 + 85

/-- The least admissible bin count from `n` on, or the greatest one if there is none. -/
def primeAtLeast (n : Nat) : Nat := (primes.find? (n ≤ ·)).getD maxBins

end ObjectMachine.Table
