import Mathlib.Data.Nat.Bitwise

/-!
# The interface of the kernel (lib/abi/src/lib.rs)

The values that cross the boundary between the kernel and the programs, as far as the modelled parts
of the kernel read or return them.
-/

namespace Abi

/-- The levels of priority (lib.rs:1299); level 0 goes to nothing. -/
def PRIORITY_LEVELS : Nat := 64

/-- Timers that the system holds at most (lib.rs:171). -/
def MAX_SYSTEM_TIMERS : Nat := 8192

/-- `Policy` (lib.rs:1378). -/
inductive Policy where
  | roundRobin
  | fifo
  deriving DecidableEq, Repr

/-- `Error` (lib.rs:1418). -/
inductive Error where
  | badHandle
  | wrongType
  | accessDenied
  | invalidArgs
  | noMemory
  | limitReached
  | peerClosed
  | wouldBlock
  | badState
  | interrupted
  | unknown (code : Nat)
  deriving DecidableEq, Repr

/-! ## Handles (lib.rs:23)

The index of the entry in the low 16 bits, its generation in the 48 above. -/

namespace Handle

def MAX_INDEX : Nat := 2 ^ 16 - 1

/-- An entry freed at this generation is retired. -/
def MAX_GENERATION : Nat := 2 ^ 48 - 1

/-- `Handle::new` (lib.rs:34). -/
def new (index generation : Nat) : Nat := ((generation &&& MAX_GENERATION) <<< 16) ||| (index &&& MAX_INDEX)

/-- `Handle::index`. -/
def index (h : Nat) : Nat := h &&& MAX_INDEX

/-- `Handle::generation`. -/
def generation (h : Nat) : Nat := h >>> 16

theorem index_eq (h : Nat) : index h = h % 2 ^ 16 := Nat.and_two_pow_sub_one_eq_mod h 16

theorem generation_eq (h : Nat) : generation h = h / 2 ^ 16 := Nat.shiftRight_eq_div_pow _ _

variable {i g : Nat}

theorem new_eq (hi : i < 2 ^ 16) (hg : g ≤ MAX_GENERATION) : new i g = 2 ^ 16 * g + i := by
  unfold MAX_GENERATION at hg
  unfold new MAX_GENERATION MAX_INDEX
  rw [Nat.and_two_pow_sub_one_eq_mod, Nat.and_two_pow_sub_one_eq_mod, Nat.mod_eq_of_lt hi,
    Nat.mod_eq_of_lt (show g < 2 ^ 48 by omega), Nat.shiftLeft_eq, mul_comm]
  exact (Nat.two_pow_add_eq_or_of_lt hi g).symm

theorem index_new (hi : i < 2 ^ 16) (hg : g ≤ MAX_GENERATION) : index (new i g) = i := by
  rw [index_eq, new_eq hi hg]; omega

theorem generation_new (hi : i < 2 ^ 16) (hg : g ≤ MAX_GENERATION) : generation (new i g) = g := by
  rw [generation_eq, new_eq hi hg]; omega

theorem ext {h k : Nat} (hi : index h = index k) (hg : generation h = generation k) : h = k := by
  rw [index_eq, index_eq] at hi
  rw [generation_eq, generation_eq] at hg
  omega

end Handle

end Abi
