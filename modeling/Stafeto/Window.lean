import Stafeto.Abi
import Mathlib.Tactic

/-!
# Device windows (kcore/src/window.rs)

A device window is a physical range rounded out to whole pages. It may not share a page with RAM or
with the interrupt controller, whose regions come from the device tree with any base and size.

`check` compares the window with each region rounded out to pages. The end of a region is computed by an
addition that saturates and then rounded up by `next_multiple_of`, which does not: an end in the last page
of the address space becomes 0, and the region is compared as if it ended before every window. So the
answer is right exactly when no such region is the only one in the window's way (`check_right_iff`).
-/

namespace Window

def PAGE_SIZE : Nat := 2 ^ 12

/-- The end of the output addresses of a descriptor (window.rs:17). -/
def OUTPUT_END : Nat := 2 ^ 48

/-- The bytes of a memory object (abi lib.rs:179). -/
def MAX_MEMORY : Nat := 2 ^ 30

/-- `Region` (bootinfo.rs:12), its fields of 64 bits. -/
structure Region where
  base : Nat
  size : Nat
  base_lt : base < 2 ^ 64
  size_lt : size < 2 ^ 64

/-- `saturating_add` (bootinfo.rs:19). -/
def Region.end_ (r : Region) : Nat := min (r.base + r.size) (2 ^ 64 - 1)

/-- `addr & !(PAGE_SIZE - 1)`. -/
def pageBase (addr : Nat) : Nat := addr / PAGE_SIZE * PAGE_SIZE

/-- `next_multiple_of(PAGE_SIZE)` of the release build: the addition wraps. -/
def nextMultiple (v : Nat) : Nat := if v % PAGE_SIZE = 0 then v else (v + (PAGE_SIZE - v % PAGE_SIZE)) % 2 ^ 64

/-- `checked_next_multiple_of(PAGE_SIZE)`. -/
def checkedNextMultiple (v : Nat) : Option Nat :=
  if v % PAGE_SIZE = 0 then some v
  else if v + (PAGE_SIZE - v % PAGE_SIZE) < 2 ^ 64 then some (v + (PAGE_SIZE - v % PAGE_SIZE)) else none

/-- `round_out` (window.rs:28): the first page's address and the count of pages. -/
def roundOut (addr len : Nat) : Except Abi.Error (Nat × Nat) :=
  let stop := if addr + len < 2 ^ 64 ∧ 0 < len then some (addr + len) else none
  match stop.bind checkedNextMultiple with
  | some top =>
    if top ≤ OUTPUT_END ∧ top - pageBase addr ≤ MAX_MEMORY then .ok (pageBase addr, (top - pageBase addr) / PAGE_SIZE)
    else .error .invalidArgs
  | none => .error .invalidArgs

/-- A region in the way of the window, as `check` computes it (window.rs:57). -/
def touches (base pages : Nat) (r : Region) : Bool :=
  decide (0 < r.size) && decide (pageBase r.base < (base + pages * PAGE_SIZE) % 2 ^ 64) &&
    decide (base < nextMultiple r.end_)

/-- `check` (window.rs:54). -/
def check (base pages : Nat) (forbidden : List Region) : Except Abi.Error Unit :=
  if forbidden.any (touches base pages) then .error .invalidArgs else .ok ()

/-! ## What is asked -/

/-- The window's pages and the region's have one in common; a region ends at the top of the addresses. -/
def Shares (base pages : Nat) (r : Region) : Prop :=
  ∃ x y, base ≤ x ∧ x < base + pages * PAGE_SIZE ∧ r.base ≤ y ∧ y < r.base + r.size ∧ y < 2 ^ 64 ∧
    x / PAGE_SIZE = y / PAGE_SIZE

/-- The end of the region lies in the last page of the addresses, where rounding up wraps to 0. -/
def Region.Wraps (r : Region) : Prop := 2 ^ 64 - PAGE_SIZE < r.base + r.size

instance (r : Region) : Decidable r.Wraps := inferInstanceAs (Decidable (_ < _))

/-- What `round_out` accepts: whole pages below `OUTPUT_END`, with every byte of the range. -/
theorem roundOut_ok {addr len base pages : Nat} (h : roundOut addr len = .ok (base, pages)) :
    base % PAGE_SIZE = 0 ∧ base + pages * PAGE_SIZE ≤ OUTPUT_END ∧ base ≤ addr ∧ 0 < len ∧
      addr + len ≤ base + pages * PAGE_SIZE := by
  unfold roundOut at h
  simp only at h
  split at h
  · next top htop =>
    rw [Option.bind_eq_some_iff] at htop
    obtain ⟨stop, hstop, htop⟩ := htop
    split_ifs at h hstop with hlen
    cases h
    cases hstop
    unfold checkedNextMultiple at htop
    unfold pageBase PAGE_SIZE OUTPUT_END at *
    split_ifs at htop
    all_goals
      cases htop
      omega
  · cases h

section
variable {base pages : Nat} {r : Region}

/-- The rounded end of a region that ends below the last page. -/
theorem nextMultiple_end (hw : ¬ r.Wraps) :
    r.base + r.size ≤ nextMultiple r.end_ ∧ nextMultiple r.end_ < r.base + r.size + PAGE_SIZE ∧
      nextMultiple r.end_ % PAGE_SIZE = 0 := by
  unfold Region.Wraps at hw
  unfold nextMultiple Region.end_
  unfold PAGE_SIZE at *
  split_ifs <;> omega

theorem nextMultiple_wraps (hw : r.Wraps) : nextMultiple r.end_ = 0 := by
  unfold Region.Wraps at hw
  unfold nextMultiple Region.end_
  unfold PAGE_SIZE at *
  split_ifs <;> omega

theorem touches_iff (hbase : base % PAGE_SIZE = 0) (hpages : 0 < pages)
    (hend : base + pages * PAGE_SIZE ≤ OUTPUT_END) (hw : ¬ r.Wraps) :
    touches base pages r = true ↔ Shares base pages r := by
  obtain ⟨h1, h2, h3⟩ := nextMultiple_end hw
  have hmod : (base + pages * PAGE_SIZE) % 2 ^ 64 = base + pages * PAGE_SIZE :=
    Nat.mod_eq_of_lt (by unfold OUTPUT_END at hend; omega)
  simp only [touches, Bool.and_eq_true, decide_eq_true_eq]
  unfold pageBase Shares
  unfold PAGE_SIZE at *
  constructor
  · rintro ⟨⟨hs, hf⟩, hl⟩
    -- the later of the two first pages is in both ranges
    refine ⟨max base (r.base / 2 ^ 12 * 2 ^ 12), max base r.base, ?_⟩
    omega
  · rintro ⟨x, y, h4, h5, h6, h7, -, h8⟩
    omega

/-- A region that wraps is never seen. -/
theorem not_touches_of_wraps (hw : r.Wraps) : touches base pages r = false := by
  simp [touches, nextMultiple_wraps hw]

end

/-- **The answer of `check` is right exactly when a region that wraps is not alone in the window's way.** -/
theorem check_right_iff (addr len base pages : Nat) (h : roundOut addr len = .ok (base, pages))
    (forbidden : List Region) :
    (check base pages forbidden = .ok () ↔ ¬ ∃ r ∈ forbidden, Shares base pages r) ↔
      ((∃ r ∈ forbidden, r.Wraps ∧ Shares base pages r) → ∃ r ∈ forbidden, ¬ r.Wraps ∧ Shares base pages r) := by
  obtain ⟨h1, h2, h3, h4, h5⟩ := roundOut_ok h
  have hpages : 0 < pages := by
    by_contra hzero
    have hz : pages * PAGE_SIZE = 0 := by simp [Nat.le_zero.1 (not_lt.1 hzero)]
    omega
  have hany : forbidden.any (touches base pages) = true ↔ ∃ r ∈ forbidden, ¬ r.Wraps ∧ Shares base pages r := by
    rw [List.any_eq_true]
    refine exists_congr fun r => and_congr_right fun _ => ?_
    by_cases hw : r.Wraps
    · simp [not_touches_of_wraps hw, hw]
    · simp [touches_iff h1 hpages h2 hw, hw]
  have hcheck : check base pages forbidden = .ok () ↔ ¬ ∃ r ∈ forbidden, ¬ r.Wraps ∧ Shares base pages r := by
    rw [← hany, check]
    split_ifs with hc <;> simp [hc]
  rw [hcheck]
  constructor
  · rintro hiff ⟨r, hr, -, hs⟩
    by_contra hcon
    exact hiff.1 hcon ⟨r, hr, hs⟩
  · intro himp
    constructor
    · rintro hnone ⟨r, hr, hs⟩
      by_cases hw : r.Wraps
      · exact hnone (himp ⟨r, hr, hw, hs⟩)
      · exact hnone ⟨r, hr, hw, hs⟩
    · rintro hnone ⟨r, hr, -, hs⟩
      exact hnone ⟨r, hr, hs⟩

/-- RAM from 1 GiB on with the largest size a device tree can give. -/
def ramToTheTop : Region := ⟨0x40000000, 2 ^ 64 - 1, by decide, by decide⟩

/-- The condition is met by an ordinary region: it does not wrap. -/
theorem check_right_of_ram :
    check 0x40000000 1 [⟨0x40000000, 0x20000000, by decide, by decide⟩] = .ok () ↔
      ¬ ∃ r ∈ [(⟨0x40000000, 0x20000000, by decide, by decide⟩ : Region)], Shares 0x40000000 1 r :=
  (check_right_iff 0x40000000 0x1000 0x40000000 1 (by decide) _).2 fun ⟨r, hr, hw, _⟩ => by
    rw [List.mem_singleton] at hr
    subst hr
    exact absurd hw (by decide)

/-- **A window over RAM is accepted** when the RAM's size reaches the top of the address space. -/
theorem window_over_ram :
    roundOut 0x40000000 0x1000 = .ok (0x40000000, 1) ∧ check 0x40000000 1 [ramToTheTop] = .ok () ∧
      Shares 0x40000000 1 ramToTheTop := by
  refine ⟨by decide, by decide, 0x40000000, 0x40000000, ?_⟩
  simp [PAGE_SIZE, ramToTheTop]

end Window
