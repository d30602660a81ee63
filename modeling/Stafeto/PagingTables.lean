import Mathlib.Order.Interval.Finset.Nat
import Stafeto.Lib.OnDemand
import Stafeto.Paging

/-!
# How many tables a mapping takes (kcore/src/paging.rs)

A call that maps asks for a table wherever the walk down to a page finds none; the answer is a frame, or a
refusal that ends the call. In the tree these are requests for empty places (`OnDemand.Asked`) on the ways to the addresses of
the range, and tables never go away before the release. So the places on these ways bound the tables that
the range takes, in one call or in many, and `tables_bound` counts them.

A caller that goes on after NO_MEMORY asks again for the same place: `refused_again` shows four calls for
four pages, where the bound is three. The bound holds for what is granted, and for the calls up to the
first refusal.
-/

namespace Paging

open Radix OnDemand PageTable

/-- The calls that a call of the tree makes. -/
def opCalls (t : PageTable) (m : TableMemory) : Op → List (Option Nat)
  | .map va pa size attrs => t.mapRangeCalls m va pa size attrs true
  | .mapUser va pa size attrs => t.mapUserCalls m va pa size attrs
  | .unmapPage _ | .protectPage _ _ => []

def runCalls (t : PageTable) : TableMemory → List Op → List (Option Nat)
  | _, [] => []
  | m, op :: ops => opCalls t m op ++ runCalls t (exec t m op) ops

/-! ## Growth -/

variable {t : PageTable} {P Q : Nat × Nat → Prop} {m m' m'' : TableMemory} {T T' T'' : TableTree Nat}
  {calls calls' : List (Option Nat)} {va table last : Nat} {blocks : Bool} {attrs : Attrs} {a : Nat × Nat}

/-- No call asks for a second root. -/
def BelowRoot (a : Nat × Nat) : Prop := a.1 ≠ 0

theorem OnWays.belowRoot {off size : Nat} (h : OnWays va off size a) : BelowRoot a := by
  rcases h with ⟨x, -, -, l, -, rfl⟩
  exact Nat.succ_ne_zero l

theorem exec_grew (h : Inv t m T) (op : Op) : ∃ T', Grew t BelowRoot m T (opCalls t m op) (exec t m op) T' := by
  cases op with
  | map va pa size attrs =>
    obtain ⟨T', h'⟩ := (mapRange_spec h).1
    exact ⟨T', h'.mono fun _ => OnWays.belowRoot⟩
  | mapUser va pa size attrs =>
    obtain ⟨T', h'⟩ := (mapUser_spec h).1
    exact ⟨T', h'.mono fun _ => OnWays.belowRoot⟩
  | unmapPage va => exact (unmapPage_spec h va).1
  | protectPage va attrs => exact (protectPage_spec h va attrs).1

theorem run_grew (h : Inv t m T) (ops : List Op) :
    ∃ T', Grew t BelowRoot m T (runCalls t m ops) (run t m ops) T' := by
  induction ops generalizing m T with
  | nil => exact ⟨T, .same h rfl rfl⟩
  | cons op ops ih =>
    obtain ⟨T₁, h₁⟩ := exec_grew h op
    obtain ⟨T', h'⟩ := ih h₁.inv
    exact ⟨T', h₁.trans h'⟩

/-! ## `tables_bound` -/

/-- The regions of `2 ^ shift` bytes that the range touches; `none` where the arithmetic leaves u64. -/
def regions (last va shift : Nat) : Option Nat :=
  if last >>> shift < va >>> shift then none
  else if 2 ^ 64 ≤ (last >>> shift) - (va >>> shift) + 1 then none
  else some ((last >>> shift) - (va >>> shift) + 1)

/-- `tables_bound` (paging.rs:246); `none` where the arithmetic leaves u64. -/
def tablesBound (va pages : Nat) : Option Nat :=
  if 2 ^ 64 ≤ pages <<< 12 then none
  else if 2 ^ 64 ≤ va + (pages <<< 12) then none
  else if va + (pages <<< 12) = 0 then none
  else
    let last := va + (pages <<< 12) - 1
    (regions last va 21).bind fun a => (regions last va 30).bind fun b => (regions last va 39).bind fun c =>
      if 2 ^ 64 ≤ a + b + c then none else some (a + b + c)

theorem regions_eq {shift : Nat} (hle : va ≤ last) (hlast : last < 2 ^ 48) :
    regions last va shift = some (last / 2 ^ shift - va / 2 ^ shift + 1) := by
  have hdiv : va / 2 ^ shift ≤ last / 2 ^ shift := Nat.div_le_div_right hle
  have hself : last / 2 ^ shift ≤ last := Nat.div_le_self ..
  unfold regions
  rw [Nat.shiftRight_eq_div_pow, Nat.shiftRight_eq_div_pow]
  generalize last / 2 ^ shift = b at *
  generalize va / 2 ^ shift = a at *
  rw [if_neg (by omega), if_neg (by omega)]

/-- On a range of the lower half the bound is what its words say. -/
theorem tablesBound_eq {pages : Nat} (hp : 1 ≤ pages) (hend : va + pages * PAGE_SIZE ≤ USER_END) :
    tablesBound va pages = some (((va + pages * PAGE_SIZE - 1) / 2 ^ 21 - va / 2 ^ 21 + 1) +
      ((va + pages * PAGE_SIZE - 1) / 2 ^ 30 - va / 2 ^ 30 + 1) +
      ((va + pages * PAGE_SIZE - 1) / 2 ^ 39 - va / 2 ^ 39 + 1)) := by
  have hsize : pages <<< 12 = pages * PAGE_SIZE := Nat.shiftLeft_eq ..
  have huser : USER_END = 2 ^ 48 := by decide
  unfold tablesBound
  rw [hsize, if_neg (by omega), if_neg (by omega), if_neg (by omega)]
  obtain ⟨last, hlast⟩ : ∃ last, last = va + pages * PAGE_SIZE - 1 := ⟨_, rfl⟩
  simp only [← hlast]
  have hle : va ≤ last := by omega
  have hlt : last < 2 ^ 48 := by omega
  rw [regions_eq hle hlt, regions_eq hle hlt, regions_eq hle hlt]
  have hcount : ∀ s, last / 2 ^ s - va / 2 ^ s ≤ last := fun s => (Nat.sub_le ..).trans (Nat.div_le_self ..)
  have h21 := hcount 21
  have h30 := hcount 30
  have h39 := hcount 39
  simp only [Option.bind_some]
  generalize last / 2 ^ 21 - va / 2 ^ 21 = a at *
  generalize last / 2 ^ 30 - va / 2 ^ 30 = b at *
  generalize last / 2 ^ 39 - va / 2 ^ 39 = c at *
  rw [if_neg (by omega)]

/-- The places of tables on the ways to the addresses from `va` to `last`. -/
def ways (va last : Nat) : Finset (Nat × Nat) :=
  (Finset.Icc (va / 2 ^ 21) (last / 2 ^ 21)).image (Prod.mk 3) ∪
    (Finset.Icc (va / 2 ^ 30) (last / 2 ^ 30)).image (Prod.mk 2) ∪
    (Finset.Icc (va / 2 ^ 39) (last / 2 ^ 39)).image (Prod.mk 1)

theorem mem_ways {w : Nat} (h1 : va ≤ w) (h2 : w ≤ last) (hw : w < 2 ^ 48) (ha : OnWay w a) :
    a ∈ ways va last := by
  rcases ha with ⟨l, hl, rfl⟩
  have hlow : w % 2 ^ 48 = w := Nat.mod_eq_of_lt hw
  have hin : ∀ s, w / 2 ^ s ∈ Finset.Icc (va / 2 ^ s) (last / 2 ^ s) := fun s =>
    Finset.mem_Icc.2 ⟨Nat.div_le_div_right h1, Nat.div_le_div_right h2⟩
  simp only [ways, Finset.mem_union, Finset.mem_image]
  obtain rfl | rfl | rfl : l = 0 ∨ l = 1 ∨ l = 2 := by omega
  · exact .inr ⟨_, hin 39, by rw [place, hlow]⟩
  · exact .inl (.inr ⟨_, hin 30, by rw [place, hlow]⟩)
  · exact .inl (.inl ⟨_, hin 21, by rw [place, hlow]⟩)

theorem card_ways (va last : Nat) : (ways va last).card ≤
    (last / 2 ^ 21 - va / 2 ^ 21 + 1) + (last / 2 ^ 30 - va / 2 ^ 30 + 1) + (last / 2 ^ 39 - va / 2 ^ 39 + 1) := by
  have himage : ∀ l s : Nat, ((Finset.Icc (va / 2 ^ s) (last / 2 ^ s)).image (Prod.mk l)).card ≤
      last / 2 ^ s - va / 2 ^ s + 1 := by
    intro l s
    refine Finset.card_image_le.trans ?_
    rw [Nat.card_Icc]
    omega
  refine (Finset.card_union_le _ _).trans ?_
  have := Finset.card_union_le ((Finset.Icc (va / 2 ^ 21) (last / 2 ^ 21)).image (Prod.mk 3))
    ((Finset.Icc (va / 2 ^ 30) (last / 2 ^ 30)).image (Prod.mk 2))
  have := himage 3 21
  have := himage 2 30
  have := himage 1 39
  omega

/-! ## A range in portions -/

/-- A call while a range is mapped: `map_user` of its next pages, or an `unmap_page` of any page. -/
inductive Portion where
  | map (pa pages : Nat) (attrs : Attrs)
  | unmap (va : Nat)

/-- The pages that the portions map. -/
def pagesOf : List Portion → Nat
  | [] => 0
  | .map _ n _ :: ps => n + pagesOf ps
  | .unmap _ :: ps => pagesOf ps

/-- The calls of `alloc_table` while a range from `va` on is mapped in portions. -/
def portionCalls (t : PageTable) : Nat → List Portion → TableMemory → List (Option Nat)
  | _, [], _ => []
  | va, .map pa n attrs :: ps, m =>
    t.mapUserCalls m va pa (n * PAGE_SIZE) attrs ++
      portionCalls t (va + n * PAGE_SIZE) ps (t.mapUser m va pa (n * PAGE_SIZE) attrs).2
  | va, .unmap w :: ps, m => portionCalls t va ps (t.unmapPage m w).2

/-- The portions ask for tables on the ways to their range. -/
theorem portions_asked {b : Nat} (ps : List Portion) (h : Inv t m T) (hb : b ≤ va)
    (hlast : va + pagesOf ps * PAGE_SIZE ≤ last + 1) (hend : last < 2 ^ 48) :
    ∃ f', Asked (· ∈ ways b last) (tables T) (portionCalls t va ps m) f' := by
  induction ps generalizing m T va with
  | nil => exact ⟨_, .done⟩
  | cons p ps ih =>
    cases p with
    | map pa n attrs =>
      rw [pagesOf, add_mul] at hlast
      obtain ⟨T', h'⟩ := (mapUser_spec h).1
      obtain ⟨f', hf⟩ := ih h'.inv (show b ≤ va + n * PAGE_SIZE by omega) (by omega)
      refine ⟨f', (h'.asked.mono ?_).trans hf⟩
      rintro a ⟨x, -, hx, hway⟩
      exact mem_ways (by omega) (by omega) (by omega) hway
    | unmap w =>
      obtain ⟨T', h'⟩ := (unmapPage_spec h w).1
      obtain ⟨f', hf⟩ := ih h'.inv hb hlast
      exact ⟨f', h'.asked.trans hf⟩

/-- With memory refused, a caller that goes on asks for one place at every page. -/
theorem refused_again :
    let m₀ : TableMemory := ⟨fun _ => 0, [some 0x1000]⟩
    let t : PageTable := ⟨0x1000⟩
    let m := (new m₀).2
    let page : Portion := .map 0x80000000 1 ⟨.normal, false, false, true, false⟩
    m₀.Sound ∧ new m₀ = (.ok t, m) ∧ pagesOf [page, page, page, page] = 4 ∧ tablesBound 0 4 = some 3 ∧
      (portionCalls t 0 [page, page, page, page] m).length = 4 := by
  intro m₀ t m page
  refine ⟨⟨fun c hc => ?_, by decide⟩, rfl, rfl, by decide, ?_⟩
  · obtain rfl : c = 0x1000 := by simpa [m₀] using hc
    decide
  · decide +kernel

/-- **The bound on tables.** Take any tree that calls of any arguments built, and a range of at least one page
below USER_END that is mapped by `map_user` in any portions, with pages unmapped in between. `tables_bound` of
the range does not overflow. The tables granted to the portions are at most that many; and as long as
`alloc_table` has refused none, so are its calls, that of the first refusal included. -/
theorem tables_bound_of_range {m₀ m₁ : TableMemory} (hs : m₀.Sound) (hnew : new m₀ = (.ok t, m₁))
    (ops : List Op) {va pages : Nat} (hp : 1 ≤ pages)
    (hend : va + pages * PAGE_SIZE ≤ USER_END) (ps : List Portion) (hps : pagesOf ps = pages) :
    ∃ bound, tablesBound va pages = some bound ∧
      ((portionCalls t va ps (run t m₁ ops)).filterMap id).length ≤ bound ∧
      ∀ n, (∀ c ∈ (portionCalls t va ps (run t m₁ ops)).take n, c.isSome) →
        ((portionCalls t va ps (run t m₁ ops)).take (n + 1)).length ≤ bound := by
  have huser : USER_END = 2 ^ 48 := by decide
  obtain ⟨T, hT⟩ := run_grew (inv_new hs hnew) ops
  obtain ⟨f', hf⟩ := portions_asked ps hT.inv (le_refl va)
    (show va + pagesOf ps * PAGE_SIZE ≤ va + pages * PAGE_SIZE - 1 + 1 by rw [hps]; omega) (by omega)
  have hcard := card_ways va (va + pages * PAGE_SIZE - 1)
  have hmissing : (missing (ways va (va + pages * PAGE_SIZE - 1)) (tables T)).card ≤
      (ways va (va + pages * PAGE_SIZE - 1)).card := Finset.card_filter_le _ _
  refine ⟨_, tablesBound_eq hp hend, ?_, fun n hn => ?_⟩
  · have := hf.granted_add_missing
    omega
  · have := hf.length_take_le hn
    omega

/-- Two pages on both sides of a border of 2 MiB, the first unmapped before the second comes. -/
theorem tables_bound_of_two_pages :
    let m₀ : TableMemory := ⟨fun _ => 0, [some 0x1000, some 0x2000, some 0x3000, some 0x4000, some 0x5000]⟩
    let page : Portion := .map 0x80000000 1 ⟨.normal, false, false, true, false⟩
    ∃ bound, tablesBound 0x1FF000 2 = some bound ∧
      ((portionCalls ⟨0x1000⟩ 0x1FF000 [page, .unmap 0x1FF000, page] (new m₀).2).filterMap id).length ≤ bound := by
  intro m₀ page
  have hs : m₀.Sound := by
    refine ⟨fun c hc => ?_, by decide⟩
    have hc : c = 0x1000 ∨ c = 0x2000 ∨ c = 0x3000 ∨ c = 0x4000 ∨ c = 0x5000 := by simpa [m₀] using hc
    rcases hc with rfl | rfl | rfl | rfl | rfl
    all_goals decide
  have hnew : new m₀ = (.ok ⟨0x1000⟩, (new m₀).2) := rfl
  obtain ⟨bound, hb, hle, -⟩ := tables_bound_of_range hs hnew [] (show 1 ≤ 2 by decide)
    (show 0x1FF000 + 2 * PAGE_SIZE ≤ USER_END by decide) [page, .unmap 0x1FF000, page] rfl
  exact ⟨bound, hb, hle⟩

end Paging
