import Mathlib.Data.Nat.Notation

/-!
# Macros and machine integers of `tq_server.cpp`

The sizes are those of the shipped build (`NEW_DISPATCHER`). The number of
worker threads and of coroutines per worker are parameters of the later models;
`shippedThreads` and `shippedCoros` are the values the Makefile compiles with.
Unsigned values are naturals below their modulus; a signed `int` is an integer,
stored through `int32`.
-/
namespace TinyQuanta.Params

def shippedThreads : Nat := 14
def shippedCoros : Nat := 14

def maxDispatchUnit : Nat := 4
def txQueueBurstSize : Nat := 2
def txDequeuePeriod : Nat := 4
def dispatchRingSize : Nat := 4096
def dispatchRingDequeuePeriod : Nat := 4
def returnRingBurstSize : Nat := 64
def returnRingCheckinPeriod : Nat := 1

/-- `RX_QUEUE_BURST_SIZE`. -/
def rxQueueBurstSize (numWorkerThreads : Nat) : Nat := numWorkerThreads * maxDispatchUnit

/-- `MAX_NUM_TX_MBUF_PER_THREAD`. -/
def maxNumTxMbufPerThread (numWorkerCoros : Nat) : Nat := numWorkerCoros + txQueueBurstSize

/-- A DPDK ring created with `size` slots keeps one of them free. -/
def ringCapacity : Nat := dispatchRingSize - 1

def u16 (n : Nat) : Nat := n % 65536
def u32 (n : Nat) : Nat := n % 4294967296
def u64 (n : Nat) : Nat := n % 18446744073709551616

/-- Subtraction of two `uint64_t`. -/
def sub64 (a b : Nat) : Nat := u64 (a + (18446744073709551616 - u64 b))

def intMax : Int := 2147483647
def intMin : Int := -2147483648

/-- What a 32-bit `int` holds after the exact result `x` has been stored into it. -/
def int32 (x : Int) : Int := (x + 2147483648) % 4294967296 - 2147483648

/-- The exact value is representable. -/
def InInt (x : Int) : Prop := intMin ≤ x ∧ x ≤ intMax

instance (x : Int) : Decidable (InInt x) := inferInstanceAs (Decidable (_ ∧ _))

theorem int32_eq {x : Int} (h : InInt x) : int32 x = x := by
  simp only [InInt, intMin, intMax] at h
  unfold int32
  omega

theorem int32_inInt (x : Int) : InInt (int32 x) := by
  simp only [InInt, intMin, intMax]
  unfold int32
  omega

/-- Storing twice is storing once, so a sum of stored values can be stored at the end. -/
theorem int32_add (x y : Int) : int32 (int32 x + y) = int32 (x + y) := by
  unfold int32
  omega

@[simp] theorem int32_zero : int32 0 = 0 := rfl

/-- The largest `int` is followed by the smallest one. -/
theorem int32_overflow : int32 (intMax + 1) = intMin := rfl

/-- The difference of two 64-bit counters that count the same thing, cut down to
16 bits, only depends on the exact counts. -/
theorem u16_sub64 {a b : Nat} (h : b ≤ a) : u16 (sub64 (u64 a) (u64 b)) = (a - b) % 65536 := by
  unfold u16 sub64 u64
  omega

end TinyQuanta.Params
