import Mathlib.Data.List.Induction
import Stafeto.Lib.Bytes

/-!
# The simplest form of a path (posix-path lib.rs)

`simplify` writes the components of an absolute path into a buffer of `maxPath + 1` bytes. The stack of the
components left is kept only as the bytes already written: `..` looks back for the last slash. `Holds` says
what is written, `part_holds` is the step on one part of the input, and `length_join_foldl` bounds what is
written by the input read so far.
-/

namespace Posix.Path

open ByteStr (Bytes)
open List

/-- `MAX_PATH` (proto fs lib.rs:146). -/
def maxPath : Nat := 511

/-- `b'/'`. -/
abbrev slash : UInt8 := 47

/-- `bytes` written after the first `s.2` of the buffer; a write past its end panics. -/
def write (s : Bytes × Nat) (bytes : Bytes) : Option (Bytes × Nat) :=
  if s.2 + bytes.length ≤ s.1.length then
    some (s.1.take s.2 ++ bytes ++ s.1.drop (s.2 + bytes.length), s.2 + bytes.length)
  else none

/-- The scan back of `..` (lib.rs:30-32): down to 1, or to just after a slash. -/
def scan (out : Bytes) : Nat → Option Nat
  | 0 => some 0
  | 1 => some 1
  | i + 2 => out[i + 1]?.bind fun b => if b ≠ slash then scan out (i + 1) else some (i + 2)

/-- A slash after what is written, unless that is only the root's (lib.rs:36-39 and 45-48). -/
def writeSlash (s : Bytes × Nat) : Option (Bytes × Nat) := if 1 < s.2 then write s [slash] else some s

/-- One turn of the loop over the parts (lib.rs:25-44). -/
def part (s : Bytes × Nat) (p : Bytes) : Option (Bytes × Nat) :=
  if p = [] ∨ p = [46] then some s
  else if p = [46, 46] then (scan s.1 s.2).map fun i => (s.1, max (i - 1) 1)
  else (writeSlash s).bind fun s => write s p

/-- `simplify` (lib.rs:22-51): the length and the buffer, `none` for a panic. -/
def simplify (from_ out : Bytes) : Option (Nat × Bytes) := do
  let s ← write (out, 0) [slash]
  let s ← (from_.splitOn slash).foldlM part s
  let s ← (if from_.getLast? = some slash then writeSlash s else some s)
  let t ← write s [0]
  return (s.2, t.1)

/-! ## What the form is -/

/-- What a component does to the components left before it. -/
def take (left : List Bytes) (p : Bytes) : List Bytes :=
  if p = [] ∨ p = [46] then left else if p = [46, 46] then left.dropLast else left ++ [p]

/-- The components that the fold over the input's leaves. -/
def components (path : Bytes) : List Bytes := (path.splitOn slash).foldl take []

/-- A slash, the components joined by single slashes, and a slash at the end if `dir` and there is one. -/
def form (left : List Bytes) (dir : Bool) : Bytes :=
  slash :: ([slash].intercalate left ++ if dir ∧ left ≠ [] then [slash] else [])

/-- The simplest form of a path, which keeps a slash at the end. -/
def simplest (path : Bytes) : Bytes := form (components path) (path.getLast? = some slash)

/-- Each component with a slash before it. -/
def join (ps : List Bytes) : Bytes := ps.flatMap (slash :: ·)

@[simp] theorem length_join (ps : List Bytes) : (join ps).length = (ps.map (·.length + 1)).sum := by
  simp [join]

theorem join_concat (ps : List Bytes) (p : Bytes) : join (ps ++ [p]) = join ps ++ slash :: p := by
  simp [join]

theorem cons_intercalate {ps : List Bytes} (h : ps ≠ []) : slash :: [slash].intercalate ps = join ps := by
  induction ps with
  | nil => exact absurd rfl h
  | cons p ps ih =>
    cases ps with
    | nil => simp [join]
    | cons q qs =>
      rw [intercalate_cons_of_ne_nil (cons_ne_nil _ _), append_assoc, singleton_append,
        ih (cons_ne_nil _ _)]
      simp [join]

/-- An empty component at the end stands for a last slash. -/
theorem form_eq_join (left : List Bytes) (dir : Bool) :
    form left dir = join (left ++ if dir ∨ left = [] then [[]] else []) := by
  rcases eq_or_ne left [] with rfl | h
  · simp [form, join]
  · rw [form, ← cons_append, cons_intercalate h]
    cases dir <;> simp [h, join]

theorem form_true (left : List Bytes) : form left true = join left ++ [slash] := by
  simp [form_eq_join, join_concat]

theorem form_concat (left : List Bytes) (p : Bytes) : form (left ++ [p]) false = join left ++ slash :: p := by
  simp [form_eq_join, join_concat]

theorem join_splitOn (rest : Bytes) : join (rest.splitOn slash) = slash :: rest := by
  rw [← cons_intercalate (splitOn_ne_nil _ _), intercalate_splitOn]

theorem components_root (rest : Bytes) :
    components (slash :: rest) = (rest.splitOn slash).foldl take [] := by
  simp [components, splitOn_cons_eq_if_modifyHead, take]

theorem not_mem_of_mem_splitOn {path p : Bytes} (h : p ∈ path.splitOn slash) : slash ∉ p := by
  induction path generalizing p with
  | nil => simp_all
  | cons b path ih =>
    rw [splitOn_cons_eq_if_modifyHead] at h
    split at h
    · rcases mem_cons.mp h with rfl | h
      · simp
      · exact ih h
    · rename_i hb
      cases hs : path.splitOn slash with
      | nil => simp [hs] at h
      | cons q qs =>
        rw [hs] at h ih
        rcases mem_cons.mp h with rfl | h
        · simpa [Ne.symm (by simpa using hb : b ≠ slash)] using ih mem_cons_self
        · exact ih (mem_cons_of_mem _ h)

/-- A component that may be left: of some bytes, none of them a slash, and not a dot component. -/
structure Plain (p : Bytes) : Prop where
  ne : p ≠ []
  dot : p ≠ [46]
  dots : p ≠ [46, 46]
  slash : slash ∉ p

theorem take_plain {left : List Bytes} {p : Bytes} (h : ∀ q ∈ left, Plain q) (hp : slash ∉ p) :
    ∀ q ∈ take left p, Plain q := by
  intro q hq
  unfold take at hq
  split_ifs at hq with h1 h2
  · exact h q hq
  · exact h q (dropLast_subset _ hq)
  · rcases mem_append.mp hq with hq | hq
    · exact h q hq
    · obtain rfl := mem_singleton.mp hq
      exact ⟨fun e => h1 (.inl e), fun e => h1 (.inr e), h2, hp⟩

theorem length_join_take (left : List Bytes) (p : Bytes) :
    (join (take left p)).length ≤ (join (left ++ [p])).length := by
  unfold take
  split_ifs
  · simp
  · rcases left.eq_nil_or_concat' with rfl | ⟨init, q, rfl⟩ <;> simp
  · rfl

/-- What is left never takes more bytes than the parts read, with a slash before each. -/
theorem length_join_foldl (left ps : List Bytes) :
    (join (ps.foldl take left)).length ≤ (join (left ++ ps)).length := by
  induction ps generalizing left with
  | nil => simp
  | cons p ps ih =>
    have hstep := length_join_take left p
    have hrest := ih (take left p)
    simp at hstep hrest ⊢
    omega

theorem length_join_components (rest : Bytes) :
    (join (components (slash :: rest))).length ≤ (slash :: rest).length := by
  rw [components_root, ← join_splitOn]
  exact length_join_foldl [] _

/-- The form is never longer than the path: a slash at its end is one that the path ends in. -/
theorem length_simplest_le (rest : Bytes) : (simplest (slash :: rest)).length ≤ (slash :: rest).length := by
  have hle := length_join_components rest
  rw [simplest]
  by_cases hdir : (slash :: rest).getLast? = some slash
  · obtain ⟨path, hpath⟩ := getLast?_eq_some_iff.mp hdir
    rw [decide_eq_true hdir, form_true, hpath]
    -- The part after the last slash is empty and adds no component.
    have hcomp : components (path ++ [slash]) = components path := by
      simp [components, splitOn_append_cons_self, take]
    rw [hcomp]
    cases path with
    | nil => simp [components, take]
    | cons b path =>
      obtain rfl : slash = b := (cons.inj hpath).1
      simpa using length_join_components path
  · rw [decide_eq_false hdir]
    rcases (components (slash :: rest)).eq_nil_or_concat' with h | ⟨init, p, h⟩
    · simp [h, form]
    · rwa [h, form_concat, ← join_concat, ← h]

/-! ## The stack in the buffer -/

/-- The buffer starts with `text`, of the length kept. -/
def Holds (s : Bytes × Nat) (text : Bytes) : Prop :=
  ∃ rest, s = (text ++ rest, text.length) ∧ text.length + rest.length = maxPath + 1

variable {s : Bytes × Nat} {text : Bytes} {left : List Bytes}

theorem Holds.write (h : Holds s text) (bytes : Bytes) (hfit : text.length + bytes.length ≤ maxPath + 1) :
    ∃ t, write s bytes = some t ∧ Holds t (text ++ bytes) := by
  obtain ⟨rest, rfl, hsize⟩ := h
  refine ⟨_, if_pos (by simp; omega), rest.drop bytes.length, ?_, by simp; omega⟩
  simp

theorem Holds.writeSlash (h : Holds s (form left false)) (hleft : ∀ p ∈ left, Plain p)
    (hfit : (join left).length ≤ maxPath) : ∃ t, writeSlash s = some t ∧ Holds t (form left true) := by
  rcases left.eq_nil_or_concat' with rfl | ⟨init, p, rfl⟩
  · obtain ⟨rest, rfl, hsize⟩ := h
    exact ⟨_, rfl, rest, rfl, hsize⟩
  · have hlen : 1 < s.2 := by
      obtain ⟨rest, rfl, -⟩ := h
      have := length_pos_iff.mpr (hleft p (by simp)).ne
      simp [form_concat]
      omega
    rw [form_concat, ← join_concat] at h
    rw [Path.writeSlash, if_pos hlen, form_true]
    exact h.write _ (by simpa using hfit)

/-- The scan over a component stops right before it. -/
theorem scan_spec (pre : Bytes) {p : Bytes} (hp : slash ∉ p) (rest : Bytes) :
    scan (pre ++ slash :: p ++ rest) (pre ++ slash :: p).length = some (pre.length + 1) := by
  induction p using reverseRecOn generalizing rest with
  | nil =>
    cases pre with
    | nil => rfl
    | cons b pre => simp [scan]
  | append_singleton p b ih =>
    have hb : b ≠ slash := by grind
    have := ih (by grind) (b :: rest)
    rw [show (pre ++ slash :: (p ++ [b])).length = pre.length + p.length + 2 by simp; omega, scan]
    simpa [hb, add_assoc] using this

theorem part_dots (h : Holds s (form left false)) (hleft : ∀ p ∈ left, Plain p) :
    ∃ t, part s [46, 46] = some t ∧ Holds t (form left.dropLast false) := by
  obtain ⟨rest, rfl, hsize⟩ := h
  rcases left.eq_nil_or_concat' with rfl | ⟨init, p, rfl⟩
  · exact ⟨_, rfl, rest, rfl, hsize⟩
  · have hscan := scan_spec (join init) (hleft p (by simp)).slash rest
    obtain ⟨more, hmore, hlen⟩ : ∃ more, form init false ++ more = join init ++ slash :: p ∧
        (form init false).length = max (join init).length 1 := by
      rcases init.eq_nil_or_concat' with rfl | ⟨init, q, rfl⟩
      · exact ⟨p, rfl, rfl⟩
      · exact ⟨slash :: p, by rw [form_concat, join_concat], by rw [form_concat]; simp; omega⟩
    rw [form_concat] at hsize ⊢
    rw [dropLast_concat]
    refine ⟨(join init ++ slash :: p ++ rest, (form init false).length), ?_, more ++ rest, ?_, ?_⟩
    · simp only [part, hscan, hlen]
      simp
    · rw [← hmore, append_assoc]
    · rw [← hmore] at hsize
      simpa [add_assoc] using hsize

theorem part_holds (h : Holds s (form left false)) (hleft : ∀ p ∈ left, Plain p) {p : Bytes}
    (hfit : (join (left ++ [p])).length ≤ maxPath) :
    ∃ t, part s p = some t ∧ Holds t (form (take left p) false) := by
  by_cases h1 : p = [] ∨ p = [46]
  · exact ⟨s, if_pos h1, by rwa [take, if_pos h1]⟩
  by_cases h2 : p = [46, 46]
  · rw [h2]
    exact part_dots h hleft
  · simp at hfit
    obtain ⟨t, ht, hold⟩ := h.writeSlash hleft (by simp; omega)
    obtain ⟨u, hu, hold⟩ := hold.write p (by simp [form_true]; omega)
    refine ⟨u, by simp [part, h1, h2, ht, hu], ?_⟩
    rw [take, if_neg h1, if_neg h2, form_concat]
    simpa [form_true] using hold

theorem parts_hold {ps : List Bytes} (h : Holds s (form left false)) (hleft : ∀ p ∈ left, Plain p)
    (hps : ∀ p ∈ ps, slash ∉ p) (hfit : (join (left ++ ps)).length ≤ maxPath) :
    ∃ t, ps.foldlM part s = some t ∧ Holds t (form (ps.foldl take left) false) ∧
      ∀ p ∈ ps.foldl take left, Plain p := by
  induction ps generalizing s left with
  | nil => exact ⟨s, rfl, h, hleft⟩
  | cons p ps ih =>
    have hstep := length_join_take left p
    simp at hstep hfit
    obtain ⟨t, ht, hold⟩ := part_holds h hleft (p := p) (by simp; omega)
    obtain ⟨u, hu, hold⟩ := ih hold (take_plain hleft (hps p mem_cons_self))
      (fun q hq => hps q (mem_cons_of_mem _ hq)) (by simp; omega)
    exact ⟨u, by simp [ht, hu], hold⟩

/-- **The run**: the buffer starts with the simplest form and a zero. -/
theorem simplify_simplest {rest out : Bytes} (hlen : (slash :: rest).length ≤ maxPath)
    (hout : out.length = maxPath + 1) :
    (∀ p ∈ components (slash :: rest), Plain p) ∧
      ∃ out', simplify (slash :: rest) out = some ((simplest (slash :: rest)).length, out') ∧
        simplest (slash :: rest) ++ [0] <+: out' := by
  have hle := length_simplest_le rest
  have hstart : Holds (out, 0) [] := ⟨out, rfl, by simpa using hout⟩
  obtain ⟨s₀, hs₀, hroot : Holds s₀ (form [] false)⟩ := hstart.write [slash] (by simp)
  obtain ⟨s, hs, hold, hplain⟩ := parts_hold hroot (by simp)
    (fun p => not_mem_of_mem_splitOn) (by rwa [nil_append, join_splitOn])
  refine ⟨hplain, ?_⟩
  obtain ⟨t, ht, hold⟩ :
      ∃ t, (if (slash :: rest).getLast? = some slash then writeSlash s else some s) = some t ∧
        Holds t (simplest (slash :: rest)) := by
    unfold simplest
    by_cases hdir : (slash :: rest).getLast? = some slash
    · simp only [hdir]
      exact hold.writeSlash hplain ((length_join_components rest).trans hlen)
    · simp only [hdir]
      exact ⟨s, rfl, hold⟩
  obtain ⟨u, hu, left, rfl, -⟩ := hold.write [0] (by simp at hle hlen ⊢; omega)
  obtain ⟨_, rfl, _⟩ := hold
  refine ⟨_, ?_, prefix_append _ left⟩
  have hparts : (slash :: rest).splitOn slash = [] :: rest.splitOn slash := by
    simp [splitOn_cons_eq_if_modifyHead]
  have hskip : part s₀ [] = some s₀ := if_pos (.inl rfl)
  simp [simplify, hs₀, hparts, hskip, hs, ht, hu]

theorem foldl_take_plain (h : ∀ p ∈ left, Plain p) (base : List Bytes) :
    left.foldl take base = base ++ left := by
  induction left generalizing base with
  | nil => simp
  | cons p left ih =>
    have hp := h p mem_cons_self
    rw [foldl_cons, ih (fun q hq => h q (mem_cons_of_mem _ hq)), take,
      if_neg (not_or.mpr ⟨hp.ne, hp.dot⟩), if_neg hp.dots, append_assoc, singleton_append]

/-- A form is its own simplest form. -/
theorem simplest_form (h : ∀ p ∈ left, Plain p) (dir : Bool) : simplest (form left dir) = form left dir := by
  have hparts : ∀ p ∈ left ++ (if dir ∨ left = [] then [[]] else []), slash ∉ p := by
    intro p hp
    rcases mem_append.mp hp with hp | hp
    · exact (h p hp).slash
    · split_ifs at hp <;> simp_all
  have hcomp : components (form left dir) = left := by
    have hne : left ++ (if dir ∨ left = [] then [[]] else []) ≠ [] := by split_ifs <;> simp_all
    rw [form_eq_join, ← cons_intercalate hne, components_root, splitOn_intercalate _ hparts hne, foldl_append,
      foldl_take_plain h]
    split_ifs <;> simp [take]
  rw [simplest, hcomp]
  rcases left.eq_nil_or_concat' with rfl | ⟨init, p, rfl⟩
  · simp [form]
  · cases dir with
    | true => simp [form_true]
    | false =>
      rw [form_concat, decide_eq_false, form_concat]
      rw [getLast?_append, getLast?_cons, getLast?_eq_some_getLast (h p (by simp)).ne]
      intro e
      exact (h p (by simp)).slash (Option.some.inj e ▸ getLast_mem _)

/-- **The simplest form**: on a path from the root that fits, `simplify` writes the simplest form and a zero
inside the buffer. The form is no longer than the path, and simplifying it again gives it back. -/
theorem simplify_writes_simplest (rest : Bytes) (hlen : (slash :: rest).length ≤ maxPath) :
    (simplest (slash :: rest)).length ≤ (slash :: rest).length ∧
      ∀ path ∈ [slash :: rest, simplest (slash :: rest)], ∀ out : Bytes, out.length = maxPath + 1 →
        ∃ out', simplify path out = some ((simplest (slash :: rest)).length, out') ∧
          simplest (slash :: rest) ++ [0] <+: out' := by
  have hle := length_simplest_le rest
  refine ⟨hle, fun path hpath out hout => ?_⟩
  obtain ⟨hplain, hrun⟩ := simplify_simplest hlen hout
  rcases mem_pair.mp hpath with rfl | rfl
  · exact hrun
  · have hself : simplest (simplest (slash :: rest)) = simplest (slash :: rest) := simplest_form hplain _
    have := (simplify_simplest (hle.trans hlen) hout).2
    rwa [← form, ← simplest, hself] at this

/-- `/a/./../b//` becomes `/b/`. -/
theorem simplify_writes_simplest_dots :
    simplest [47, 97, 47, 46, 47, 46, 46, 47, 98, 47, 47] = [47, 98, 47] ∧
      (simplest [47, 97, 47, 46, 47, 46, 46, 47, 98, 47, 47]).length ≤ 11 :=
  ⟨by decide, (simplify_writes_simplest [97, 47, 46, 47, 46, 46, 47, 98, 47, 47] (by decide)).1⟩

end Posix.Path
