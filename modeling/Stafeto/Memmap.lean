import Stafeto.Window

/-!
# Usable memory (kcore/src/memmap.rs)

`usable` takes the regions of memory, shrinks them to whole pages, and takes the reserved ranges, grown to
whole pages, away from them one after another. Each range splits the pieces it meets, into at most two each.
The pieces live in an array of `N` places, and one that finds no place ends the computation.

The pieces after each range are described without the array first (`pieces`): they stay whole pages, keep
apart, and hold a page exactly when they held it before and the range does not (`good_cut`, `holdsPage_cut`).
The loops over the array give those lists as long as they fit (`run_cutAll`). The end of a region saturates
one byte below the top of the addresses, so the last page of a region that reaches the top is not usable.
-/

namespace Memmap

open Window List

/-- `MemMapError`. -/
inductive Error where
  | tooManyRegions
  deriving DecidableEq, Repr

/-- `align_down` (memmap.rs:17). -/
def alignDown (x : Nat) : Nat := pageBase x

/-- `align_up` (memmap.rs:21): the last page boundary when the addition does not fit. -/
def alignUp (x : Nat) : Nat :=
  if x + (PAGE_SIZE - 1) < 2 ^ 64 then alignDown (x + (PAGE_SIZE - 1)) else alignDown (2 ^ 64 - 1)

/-- `push` (memmap.rs:26): the array has `N` places. -/
def push (N : Nat) (list : List Region) (r : Region) : Except Error (List Region) :=
  if list.length = N then .error .tooManyRegions else .ok (list ++ [r])

/-! ## Page boundaries -/

theorem alignDown_spec (x : Nat) :
    alignDown x % PAGE_SIZE = 0 ∧ alignDown x ≤ x ∧ x < alignDown x + PAGE_SIZE := by
  simp only [alignDown, pageBase, PAGE_SIZE]
  omega

/-- Above the last boundary there is nothing to round up to. -/
theorem alignUp_spec {x : Nat} (h : x < 2 ^ 64) :
    alignUp x % PAGE_SIZE = 0 ∧ alignUp x ≤ 2 ^ 64 - PAGE_SIZE ∧
      (x ≤ alignUp x ∧ alignUp x < x + PAGE_SIZE ∨ alignUp x = 2 ^ 64 - PAGE_SIZE ∧ alignUp x < x) := by
  have hd := alignDown_spec (x + (PAGE_SIZE - 1))
  have ht := alignDown_spec (2 ^ 64 - 1)
  unfold alignUp
  split_ifs with hfit
  all_goals
    simp only [PAGE_SIZE] at *
    omega

theorem end_lt (r : Region) : r.end_ < 2 ^ 64 := by
  unfold Region.end_
  omega

theorem alignDown_lt {x : Nat} (h : x < 2 ^ 64) : alignDown x < 2 ^ 64 :=
  lt_of_le_of_lt (alignDown_spec x).2.1 h

/-- `Region { base: lo, size: hi - lo }`. -/
def between (lo hi : Nat) (hlt : lo < hi) (htop : hi < 2 ^ 64) : Region where
  base := lo
  size := hi - lo
  base_lt := by omega
  size_lt := by omega

@[simp] theorem between_base {lo hi : Nat} (hlt : lo < hi) (htop : hi < 2 ^ 64) :
    (between lo hi hlt htop).base = lo := rfl

@[simp] theorem between_end {lo hi : Nat} (hlt : lo < hi) (htop : hi < 2 ^ 64) :
    (between lo hi hlt htop).end_ = hi := by
  simp only [between, Region.end_]
  omega

/-! ## The loops -/

/-- One turn of the loop over the memory (memmap.rs:60). -/
def takeMemory (N : Nat) (list : List Region) (m : Region) : Except Error (List Region) :=
  if h : alignUp m.base < alignDown m.end_ then
    push N list (between (alignUp m.base) (alignDown m.end_) h (alignDown_lt (end_lt m)))
  else .ok list

/-- One turn of the loop over the pieces (memmap.rs:80): the piece `p` without the range from `lo` to `hi`. -/
def cutPiece (N : Nat) {lo : Nat} (hi : Nat) (hlo : lo < 2 ^ 64) (next : List Region) (p : Region) :
    Except Error (List Region) :=
  if hi ≤ p.base ∨ p.end_ ≤ lo then push N next p
  else do
    let next ← if h : p.base < lo then push N next (between p.base lo h hlo) else .ok next
    if h : hi < p.end_ then push N next (between hi p.end_ h (end_lt p)) else .ok next

/-- One turn of the loop over the reserved ranges (memmap.rs:73). -/
def cutAll (N : Nat) (list : List Region) (r : Region) : Except Error (List Region) :=
  if alignUp r.end_ ≤ alignDown r.base then .ok list
  else list.foldlM (cutPiece N (alignUp r.end_) (alignDown_lt r.base_lt)) []

/-- `usable` (memmap.rs:51). -/
def usable (N : Nat) (memory reserved : List Region) : Except Error (List Region) := do
  let list ← memory.foldlM (takeMemory N) []
  let list ← reserved.foldlM (cutAll N) list
  (list.insertionSort fun a b => a.base ≤ b.base).foldlM (push N) []

/-! ## The pieces, as many as there are -/

/-- The whole pages of a region of memory. -/
def shrink (m : Region) : List Region :=
  if h : alignUp m.base < alignDown m.end_ then
    [between (alignUp m.base) (alignDown m.end_) h (alignDown_lt (end_lt m))]
  else []

/-- What is left of the piece `p`. -/
def leave {lo : Nat} (hi : Nat) (hlo : lo < 2 ^ 64) (p : Region) : List Region :=
  if hi ≤ p.base ∨ p.end_ ≤ lo then [p]
  else (if h : p.base < lo then [between p.base lo h hlo] else []) ++
    if h : hi < p.end_ then [between hi p.end_ h (end_lt p)] else []

/-- The pieces after one reserved range. -/
def cut (list : List Region) (r : Region) : List Region :=
  if alignUp r.end_ ≤ alignDown r.base then list else list.flatMap (leave (alignUp r.end_) (alignDown_lt r.base_lt))

/-- The pieces after the memory and the reserved ranges. -/
def pieces (memory reserved : List Region) : List Region := reserved.foldl cut (memory.flatMap shrink)

/-- The list, when the array holds it. -/
def fits (N : Nat) (list : List Region) : Except Error (List Region) :=
  if list.length ≤ N then .ok list else .error .tooManyRegions

variable {N : Nat} {list : List Region}

theorem fits_of_le (h : list.length ≤ N) : fits N list = .ok list := if_pos h

/-- What follows a list that does not fit is not reached. -/
theorem fits_bind (h : ¬ list.length ≤ N) {β : Type}
    (k : List Region → Except Error β) : fits N list >>= k = .error .tooManyRegions := by
  simp [fits, if_neg h, Except.bind, bind]

theorem fits_append (h : ¬ list.length ≤ N) (rest : List Region) :
    fits N (list ++ rest) = .error .tooManyRegions := by
  unfold fits
  rw [if_neg (by rw [length_append]; omega)]

theorem push_eq_fits (h : list.length ≤ N) (r : Region) :
    push N list r = fits N (list ++ [r]) := by
  unfold push fits
  by_cases hN : list.length = N
  · simp [hN]
  · have : list.length + 1 ≤ N := by omega
    simp [hN, this]

theorem takeMemory_eq_fits (h : list.length ≤ N) (m : Region) :
    takeMemory N list m = fits N (list ++ shrink m) := by
  unfold takeMemory shrink
  split
  · exact push_eq_fits h _
  · simp [fits, h]

/-- The first push may fail already; then the whole list does not fit either. -/
theorem cutPiece_eq_fits {lo hi : Nat} (hlo : lo < 2 ^ 64) {next : List Region} (h : next.length ≤ N) (p : Region) :
    cutPiece N hi hlo next p = fits N (next ++ leave hi hlo p) := by
  unfold cutPiece leave
  by_cases h1 : hi ≤ p.base ∨ p.end_ ≤ lo
  · rw [if_pos h1, if_pos h1]
    exact push_eq_fits h p
  rw [if_neg h1, if_neg h1]
  by_cases h2 : p.base < lo
  · simp only [dif_pos h2]
    rw [push_eq_fits h, ← append_assoc]
    by_cases hN : (next ++ [between p.base lo h2 hlo]).length ≤ N
    · rw [fits_of_le hN]
      simp only [Except.bind, bind]
      split_ifs with h3
      · exact push_eq_fits hN _
      · rw [append_nil, fits_of_le hN]
    · rw [fits_bind hN, fits_append hN]
  · simp only [dif_neg h2, Except.bind, bind, nil_append]
    split_ifs with h3
    · exact push_eq_fits h _
    · rw [append_nil, fits_of_le h]

/-- A loop whose every turn appends what `g` says and stops at a full array gives everything when it fits. -/
theorem foldlM_fits {α : Type} {f : List Region → α → Except Error (List Region)} {g : α → List Region}
    (hf : ∀ list x, list.length ≤ N → f list x = fits N (list ++ g x)) :
    ∀ (xs : List α) (list : List Region), list.length ≤ N → xs.foldlM f list = fits N (list ++ xs.flatMap g)
  | [], list, h => by simp [fits, h, pure, Except.pure]
  | x :: xs, list, h => by
    rw [foldlM_cons, hf list x h, flatMap_cons, ← append_assoc]
    by_cases hN : (list ++ g x).length ≤ N
    · rw [fits_of_le hN, ← foldlM_fits hf xs _ hN]
      rfl
    · rw [fits_bind hN, fits_append hN]

theorem cutAll_eq_fits (h : list.length ≤ N) (r : Region) :
    cutAll N list r = fits N (cut list r) := by
  unfold cutAll cut
  split_ifs
  · simp [fits, h]
  · rw [foldlM_fits (fun next p hn => cutPiece_eq_fits _ hn p) list [] (Nat.zero_le _), nil_append]

/-- The loop over the reserved ranges gives the pieces, or some list of them on the way had more than `N`. -/
theorem run_cutAll :
    ∀ (reserved list : List Region), list.length ≤ N →
      reserved.foldlM (cutAll N) list = .ok (reserved.foldl cut list) ∧ (reserved.foldl cut list).length ≤ N ∨
      reserved.foldlM (cutAll N) list = .error .tooManyRegions ∧
        ∃ k ≤ reserved.length, N < ((reserved.take k).foldl cut list).length
  | [], list, h => .inl ⟨rfl, h⟩
  | r :: reserved, list, h => by
    rw [foldlM_cons, cutAll_eq_fits h, foldl_cons]
    by_cases hN : (cut list r).length ≤ N
    · rw [fits_of_le hN]
      rcases run_cutAll reserved _ hN with hok | ⟨herr, k, hk, hlen⟩
      · exact .inl hok
      · exact .inr ⟨herr, k + 1, by simpa using hk, by simpa using hlen⟩
    · rw [fits_bind hN]
      exact .inr ⟨rfl, 1, by simp, by simpa using hN⟩

/-! ## What the pieces hold -/

/-- The address lies in the region. -/
def Holds (r : Region) (x : Nat) : Prop := r.base ≤ x ∧ x < r.end_

/-- No address lies in both regions. -/
def Apart (a b : Region) : Prop := ∀ x, Holds a x → ¬ Holds b x

/-- Whole pages, at least one. -/
def Whole (r : Region) : Prop := r.base % PAGE_SIZE = 0 ∧ r.end_ % PAGE_SIZE = 0 ∧ r.base < r.end_

/-- The pieces at any time. -/
structure Good (list : List Region) : Prop where
  whole : ∀ r ∈ list, Whole r
  apart : list.Pairwise Apart

/-- The page at `p` lies in one of the regions. -/
def HoldsPage (list : List Region) (p : Nat) : Prop := ∃ r ∈ list, r.base ≤ p ∧ p + PAGE_SIZE ≤ r.end_

theorem Apart.mono {a b c d : Region} (h : Apart a b) (hc : ∀ x, Holds c x → Holds a x)
    (hd : ∀ x, Holds d x → Holds b x) : Apart c d :=
  fun x hx hx' => h x (hc x hx) (hd x hx')

variable {r : Region}

theorem Whole.end_eq (h : Whole r) : r.end_ = r.base + r.size := by
  have h2 := h.2.1
  unfold Region.end_ at *
  simp only [PAGE_SIZE] at h2
  omega

theorem holds_of_mem_shrink {m : Region} (h : r ∈ shrink m) : Whole r ∧ ∀ x, Holds r x → Holds m x := by
  unfold shrink at h
  split_ifs at h with hlt
  · rw [mem_singleton] at h
    subst h
    have hu := alignUp_spec m.base_lt
    have hd := alignDown_spec m.end_
    have he := end_lt m
    simp only [Whole, Holds, between_base, between_end]
    refine ⟨⟨hu.1, hd.1, hlt⟩, fun x hx => ?_⟩
    simp only [PAGE_SIZE] at *
    omega
  · cases h

theorem holdsPage_shrink {m : Region} {p : Nat} (hp : p % PAGE_SIZE = 0) :
    (∃ r ∈ shrink m, r.base ≤ p ∧ p + PAGE_SIZE ≤ r.end_) ↔ m.base ≤ p ∧ p + PAGE_SIZE ≤ m.end_ := by
  have hu := alignUp_spec m.base_lt
  have hd := alignDown_spec m.end_
  have he := end_lt m
  unfold shrink
  split_ifs with hlt
  · simp only [mem_singleton, exists_eq_left, between_base, between_end]
    simp only [PAGE_SIZE] at *
    omega
  · simp only [not_mem_nil, false_and, exists_false, false_iff]
    simp only [PAGE_SIZE] at *
    omega

section Leave

variable {lo hi : Nat} (hlo : lo < 2 ^ 64) {p : Region}

theorem mem_leave (h : r ∈ leave hi hlo p) :
    r = p ∨ p.base < lo ∧ lo < p.end_ ∧ r.base = p.base ∧ r.end_ = lo ∨
      hi < p.end_ ∧ p.base < hi ∧ r.base = hi ∧ r.end_ = p.end_ := by
  unfold leave at h
  split_ifs at h with h1 h2 h3 h3 <;> simp only [mem_append, mem_singleton, not_mem_nil,
    append_nil, nil_append] at h
  · exact .inl h
  · rcases h with rfl | rfl
    · exact .inr (.inl ⟨h2, by omega, between_base h2 hlo, between_end h2 hlo⟩)
    · exact .inr (.inr ⟨h3, by omega, between_base h3 _, between_end h3 _⟩)
  · subst h
    exact .inr (.inl ⟨h2, by omega, between_base h2 hlo, between_end h2 hlo⟩)
  · subst h
    exact .inr (.inr ⟨h3, by omega, between_base h3 _, between_end h3 _⟩)

theorem whole_of_mem_leave (hl : lo % PAGE_SIZE = 0) (hh : hi % PAGE_SIZE = 0) (hp : Whole p)
    (h : r ∈ leave hi hlo p) : Whole r ∧ ∀ x, Holds r x → Holds p x := by
  obtain ⟨h1, h2, h3⟩ := hp
  unfold Holds Whole
  rcases mem_leave hlo h with rfl | ⟨ha, hb, hbase, hend⟩ | ⟨ha, hb, hbase, hend⟩
  · exact ⟨⟨h1, h2, h3⟩, fun x hx => hx⟩
  · rw [hbase, hend]
    exact ⟨⟨h1, hl, ha⟩, fun x hx => by omega⟩
  · rw [hbase, hend]
    exact ⟨⟨hh, h2, ha⟩, fun x hx => by omega⟩

/-- The two parts of a piece lie on the two sides of the range. -/
theorem pairwise_leave (hlt : lo < hi) : (leave hi hlo p).Pairwise Apart := by
  unfold leave
  split_ifs with h1 h2 h3 h3
  · exact pairwise_singleton ..
  · rw [singleton_append, pairwise_pair]
    intro x hx hx'
    simp only [Holds, between_base, between_end] at hx hx'
    omega
  · exact pairwise_singleton ..
  · exact pairwise_singleton ..
  · exact List.Pairwise.nil

theorem holdsPage_leave (hl : lo % PAGE_SIZE = 0) (hh : hi % PAGE_SIZE = 0) {q : Nat}
    (hq : q % PAGE_SIZE = 0) :
    (∃ r ∈ leave hi hlo p, r.base ≤ q ∧ q + PAGE_SIZE ≤ r.end_) ↔
      (p.base ≤ q ∧ q + PAGE_SIZE ≤ p.end_) ∧ (q + PAGE_SIZE ≤ lo ∨ hi ≤ q) := by
  unfold leave
  simp only [PAGE_SIZE] at *
  split_ifs with h1 h2 h3 h3 <;> simp only [mem_append, mem_singleton, not_mem_nil, append_nil,
    nil_append, exists_eq_left, or_and_right, exists_or, between_base, between_end, false_and, exists_false,
    false_iff] <;> omega

end Leave

/-- **One reserved range** leaves whole pages that keep apart. -/
theorem good_cut (hg : Good list) (r : Region) : Good (cut list r) := by
  have hl := (alignDown_spec r.base).1
  have hh := (alignUp_spec (end_lt r)).1
  unfold cut
  split_ifs with hle
  · exact hg
  refine ⟨fun q hq => ?_, ?_⟩
  · obtain ⟨p, hp, hq⟩ := mem_flatMap.1 hq
    exact (whole_of_mem_leave _ hl hh (hg.whole p hp) hq).1
  · rw [pairwise_flatMap]
    refine ⟨fun p _ => pairwise_leave _ (by omega), List.Pairwise.imp_of_mem ?_ hg.apart⟩
    intro a b ha hb hab x hx y hy
    exact hab.mono (whole_of_mem_leave _ hl hh (hg.whole a ha) hx).2 (whole_of_mem_leave _ hl hh (hg.whole b hb) hy).2

/-- No address of the page at `p` lies in the range, grown to page boundaries. -/
def Outside (p : Nat) (r : Region) : Prop :=
  ∀ x, p ≤ x → x < p + PAGE_SIZE → ¬ (alignDown r.base ≤ x ∧ x < alignUp r.end_)

theorem outside_iff {p : Nat} (hp : p % PAGE_SIZE = 0) :
    Outside p r ↔ p + PAGE_SIZE ≤ alignDown r.base ∨ alignUp r.end_ ≤ p := by
  have hl := (alignDown_spec r.base).1
  constructor
  · intro h
    have h0 := h p le_rfl (by simp [PAGE_SIZE])
    simp only [PAGE_SIZE] at *
    omega
  · intro h x hx hx'
    omega

/-- **One reserved range** takes exactly its pages away. -/
theorem holdsPage_cut {p : Nat} (hp : p % PAGE_SIZE = 0) (r : Region) :
    HoldsPage (cut list r) p ↔ HoldsPage list p ∧ Outside p r := by
  have hl := (alignDown_spec r.base).1
  have hh := (alignUp_spec (end_lt r)).1
  rw [outside_iff hp]
  unfold cut HoldsPage
  split_ifs with hle
  · refine (and_iff_left ?_).symm
    simp only [PAGE_SIZE] at *
    omega
  · constructor
    · rintro ⟨q, hq, hin⟩
      obtain ⟨a, ha, hq⟩ := mem_flatMap.1 hq
      obtain ⟨hin, hout⟩ := (holdsPage_leave _ hl hh hp).1 ⟨q, hq, hin⟩
      exact ⟨⟨a, ha, hin⟩, hout⟩
    · rintro ⟨⟨a, ha, hin⟩, hout⟩
      obtain ⟨q, hq, hin⟩ := (holdsPage_leave (alignDown_lt r.base_lt) hl hh hp).2 ⟨hin, hout⟩
      exact ⟨q, mem_flatMap.2 ⟨a, ha, hq⟩, hin⟩

theorem good_foldl_cut :
    ∀ (reserved : List Region) {list : List Region}, Good list → Good (reserved.foldl cut list) ∧
      ∀ p, p % PAGE_SIZE = 0 →
        (HoldsPage (reserved.foldl cut list) p ↔ HoldsPage list p ∧ ∀ r ∈ reserved, Outside p r)
  | [], list, hg => ⟨hg, fun p _ => by simp⟩
  | r :: reserved, list, hg => by
    rw [foldl_cons]
    obtain ⟨hgood, hpage⟩ := good_foldl_cut reserved (good_cut hg r)
    refine ⟨hgood, fun p hp => ?_⟩
    rw [hpage p hp, holdsPage_cut hp, forall_mem_cons, and_assoc]

/-- No address lies in both regions, the end of neither cut off at the top. -/
def Region.Disjoint (a b : Region) : Prop :=
  ∀ x, ¬ (a.base ≤ x ∧ x < a.base + a.size ∧ b.base ≤ x ∧ x < b.base + b.size)

variable {memory : List Region}

theorem good_memory (h : memory.Pairwise Region.Disjoint) : Good (memory.flatMap shrink) := by
  refine ⟨fun r hr => ?_, ?_⟩
  · obtain ⟨m, -, hr⟩ := mem_flatMap.1 hr
    exact (holds_of_mem_shrink hr).1
  · rw [pairwise_flatMap]
    refine ⟨fun m _ => ?_, h.imp ?_⟩
    · unfold shrink
      split_ifs
      · exact pairwise_singleton ..
      · exact List.Pairwise.nil
    · intro a b hab r hr q hq
      have hapart : Apart a b := by
        intro x hx hx'
        unfold Holds Region.end_ at hx hx'
        exact hab x (by omega)
      exact hapart.mono (holds_of_mem_shrink hr).2 (holds_of_mem_shrink hq).2

theorem holdsPage_memory {p : Nat} (hp : p % PAGE_SIZE = 0) :
    HoldsPage (memory.flatMap shrink) p ↔ ∃ m ∈ memory, m.base ≤ p ∧ p + PAGE_SIZE ≤ m.end_ := by
  constructor
  · rintro ⟨r, hr, hin⟩
    obtain ⟨m, hm, hr⟩ := mem_flatMap.1 hr
    exact ⟨m, hm, (holdsPage_shrink hp).1 ⟨r, hr, hin⟩⟩
  · rintro ⟨m, hm, hin⟩
    obtain ⟨r, hr, hin⟩ := (holdsPage_shrink hp).2 hin
    exact ⟨r, mem_flatMap.2 ⟨m, hm, hr⟩, hin⟩

/-! ## Usable memory -/

/-- Pieces that keep apart, put in order, end before the next one starts. -/
theorem sorted_of_good (hg : Good list) :
    (list.insertionSort fun a b => a.base ≤ b.base).Pairwise fun a b => a.base + a.size ≤ b.base := by
  have hperm := list.perm_insertionSort fun a b => a.base ≤ b.base
  have hmem : ∀ r ∈ list.insertionSort fun a b => a.base ≤ b.base, Whole r := fun r hr => hg.whole r (hperm.mem_iff.1 hr)
  have hle := list.pairwise_insertionSort fun a b => a.base ≤ b.base
  have hapart : (list.insertionSort fun a b => a.base ≤ b.base).Pairwise Apart :=
    (hperm.pairwise_iff fun hab x hb ha => hab x ha hb).2 hg.apart
  refine List.Pairwise.imp_of_mem ?_ (hle.and hapart)
  rintro a b ha hb ⟨hle, hapart⟩
  -- else the first address of `b` would lie in both
  have hb' := (hmem b hb).2.2
  rw [← (hmem a ha).end_eq]
  by_contra hlt
  exact hapart b.base ⟨hle, by omega⟩ ⟨le_rfl, hb'⟩

/-- The result, or the list of pieces that did not fit. -/
theorem usable_cases (N : Nat) (memory reserved : List Region) :
    usable N memory reserved = .ok ((pieces memory reserved).insertionSort fun a b => a.base ≤ b.base) ∨
    usable N memory reserved = .error .tooManyRegions ∧
      ∃ k ≤ reserved.length, N < (pieces memory (reserved.take k)).length := by
  have hm : memory.foldlM (takeMemory N) [] = fits N (memory.flatMap shrink) := by
    rw [foldlM_fits (fun list m hn => takeMemory_eq_fits hn m) memory [] (Nat.zero_le _), nil_append]
  unfold usable
  rw [hm]
  by_cases hN : (memory.flatMap shrink).length ≤ N
  · rw [fits_of_le hN]
    simp only [Except.bind, bind]
    rcases run_cutAll reserved _ hN with ⟨hok, hlen⟩ | ⟨herr, k, hk, hlen⟩
    · rw [hok]
      refine .inl ?_
      have hsort := length_insertionSort (fun a b : Region => a.base ≤ b.base) (pieces memory reserved)
      have hpush := foldlM_fits (fun list r hn => push_eq_fits hn r)
        ((pieces memory reserved).insertionSort fun a b => a.base ≤ b.base) [] (Nat.zero_le N)
      have hself : ∀ l : List Region, l.flatMap (fun r => [r]) = l := flatMap_singleton'
      rw [nil_append, hself, fits, hsort, if_pos (show (pieces memory reserved).length ≤ N from hlen)] at hpush
      exact hpush
    · rw [herr]
      exact .inr ⟨rfl, k, hk, hlen⟩
  · rw [fits_bind hN]
    exact .inr ⟨rfl, 0, Nat.zero_le _, by simpa [pieces] using hN⟩

/-- **Usable memory**: whole pages in order and apart, exactly those wholly inside a region of memory, outside
every reserved range, and not the last page of the addresses; and no result only when some list of pieces does
not fit. -/
theorem usable_spec (N : Nat) {memory : List Region} (reserved : List Region)
    (hdisjoint : memory.Pairwise Region.Disjoint) :
    (∀ out, usable N memory reserved = .ok out →
      (∀ r ∈ out, r.base % PAGE_SIZE = 0 ∧ r.size % PAGE_SIZE = 0 ∧ 0 < r.size) ∧
      (out.Pairwise fun a b => a.base + a.size ≤ b.base) ∧
      ∀ p, p % PAGE_SIZE = 0 →
        ((∃ r ∈ out, r.base ≤ p ∧ p + PAGE_SIZE ≤ r.base + r.size) ↔
          (∃ m ∈ memory, m.base ≤ p ∧ p + PAGE_SIZE ≤ m.base + m.size) ∧ p + PAGE_SIZE < 2 ^ 64 ∧
            ∀ r ∈ reserved, Outside p r)) ∧
    ∀ e, usable N memory reserved = .error e →
      ∃ k ≤ reserved.length, N < (pieces memory (reserved.take k)).length := by
  obtain ⟨hgood, hpage⟩ := good_foldl_cut reserved (good_memory hdisjoint)
  have hperm := (pieces memory reserved).perm_insertionSort fun a b => a.base ≤ b.base
  refine ⟨fun out hout => ?_, fun e he => ?_⟩
  · rcases usable_cases N memory reserved with hok | ⟨herr, -⟩
    · cases hok.symm.trans hout
      have hwhole : ∀ r ∈ (pieces memory reserved).insertionSort fun a b => a.base ≤ b.base, Whole r :=
        fun r hr => hgood.whole r (hperm.mem_iff.1 hr)
      refine ⟨fun r hr => ?_, sorted_of_good hgood, fun p hp => ?_⟩
      · obtain ⟨hb, he, hlt⟩ := hwhole r hr
        rw [(hwhole r hr).end_eq] at he hlt
        simp only [PAGE_SIZE] at *
        omega
      · have hpieces := hpage p hp
        rw [holdsPage_memory hp] at hpieces
        constructor
        · rintro ⟨r, hr, hin⟩
          rw [← (hwhole r hr).end_eq] at hin
          obtain ⟨⟨m, hm, hmin⟩, hout⟩ := hpieces.1 ⟨r, hperm.mem_iff.1 hr, hin⟩
          unfold Region.end_ at hmin
          exact ⟨⟨m, hm, by omega⟩, by omega, hout⟩
        · rintro ⟨⟨m, hm, hmin⟩, htop, hout⟩
          have hend : p + PAGE_SIZE ≤ m.end_ := by
            unfold Region.end_
            omega
          obtain ⟨r, hr, hin⟩ := hpieces.2 ⟨⟨m, hm, hmin.1, hend⟩, hout⟩
          rw [(hgood.whole r hr).end_eq] at hin
          exact ⟨r, hperm.mem_iff.2 hr, hin⟩
    · cases herr.symm.trans hout
  · rcases usable_cases N memory reserved with hok | ⟨-, hk⟩
    · cases hok.symm.trans he
    · exact hk

/-- Three pages with one byte of the second reserved: the first and the third are usable. -/
theorem usable_spec_split :
    ∃ out, usable 2 [⟨0x1000, 0x3000, by decide, by decide⟩] [⟨0x2800, 1, by decide, by decide⟩] = .ok out ∧
      out.map (fun r => (r.base, r.size)) = [(0x1000, 0x1000), (0x3000, 0x1000)] ∧
      out.Pairwise fun a b => a.base + a.size ≤ b.base := by
  have hok : usable 2 [⟨0x1000, 0x3000, by decide, by decide⟩] [⟨0x2800, 1, by decide, by decide⟩] =
      .ok [⟨0x1000, 0x1000, by decide, by decide⟩, ⟨0x3000, 0x1000, by decide, by decide⟩] := rfl
  exact ⟨_, hok, rfl, ((usable_spec 2 _ (pairwise_singleton ..)).1 _ hok).2.1⟩

/-- The last two pages of the addresses as memory, and nothing reserved: the last page is not usable. -/
theorem last_page_not_usable :
    ∃ m : Region, [m].Pairwise Region.Disjoint ∧ ∃ out, usable 4 [m] [] = .ok out ∧
      ∃ p, p % PAGE_SIZE = 0 ∧ m.base ≤ p ∧ p + PAGE_SIZE ≤ m.base + m.size ∧ (∀ r ∈ [], Outside p r) ∧
        ¬ ∃ r ∈ out, r.base ≤ p ∧ p + PAGE_SIZE ≤ r.base + r.size := by
  refine ⟨⟨2 ^ 64 - 2 ^ 13, 2 ^ 13, by decide, by decide⟩, pairwise_singleton ..,
    [⟨2 ^ 64 - 2 ^ 13, 2 ^ 12, by decide, by decide⟩], rfl, 2 ^ 64 - 2 ^ 12, by decide, by decide, by decide,
    by simp, ?_⟩
  simp [PAGE_SIZE]

end Memmap
