import Stafeto.Abi
import Stafeto.Lib.Chain
import Stafeto.Lib.Mask
import Stafeto.Lib.Run

/-!
# Thread numbers and the tokens of replies (kcore/src/token.rs)

A thread takes a number, an entry of the table. The entry counts the requests of the threads on its number
that a service accepted; the count stays when the thread goes. A token is a number and a count, so that it is
given out once. A mark on the entry says that the last accepted request was abandoned; it goes with the next
accepted request and when the number is taken again.

A `Book` is what the table is for: who is on each number, the counts, the marks, and the numbers given back in
the order they came. Events lead from book to book, and `Event.Right` says what a call answers in the terms of
the book before it; `Inv` ties the words, the holders and the list of free numbers to the book.

The count, DEAD and TAKEN share a word, and the holder is a union; reading a field that was not written last is
`none` here, as is an index out of bounds or an assertion that fails.
-/

namespace Token

open Abi Chain Mask Function List

variable {T : Type} {w : Nat}

def INDEX_BITS : Nat := 16
def MAX_COUNT : Nat := 2 ^ 48 - 1
def TAKEN : Nat := 1 <<< 63
def DEAD : Nat := 1 <<< 62

/-- The end of the list of numbers given back, which names number i as i + 1. -/
def NONE : Nat := 0

/-- `Holder` (token.rs:41). -/
inductive Holder (T : Type) where
  | thread (t : T)
  | next (n : Nat)

/-- `Entry` (token.rs:56). -/
structure Entry (T : Type) where
  holder : Holder T
  word : Nat

/-- `Table` (token.rs:63), over the entries below `N`. -/
structure Table (T : Type) where
  entries : Nat → Entry T
  used : Nat
  firstFree : Nat
  lastFree : Nat
  taken : Nat
  retired : Nat

namespace Table

/-- `new` (token.rs:86). -/
def new : Table T := ⟨fun _ => ⟨.next NONE, 0⟩, 0, NONE, NONE, 0, 0⟩

/-- `available` (token.rs:116). -/
def available (N : Nat) (t : Table T) : Nat := N - t.taken - t.retired

def setEntry (t : Table T) (i : Nat) (e : Entry T) : Table T := { t with entries := update t.entries i e }

/-- The thread comes onto the number that `alloc` found (token.rs:143). -/
def hold (t : Table T) (index : Nat) (thread : T) : Table T :=
  let t := t.setEntry index ⟨.thread thread, (t.entries index).word &&& MAX_COUNT ||| TAKEN⟩
  { t with taken := t.taken + 1 }

/-- `alloc` (token.rs:123). -/
def alloc (N : Nat) (t : Table T) (thread : T) : Option (Except Error Nat × Table T) :=
  if t.used < N then
    let index := t.used
    some (.ok (index % 2 ^ 16), ({ t with used := t.used + 1 } : Table T).hold index thread)
  else if t.firstFree ≠ NONE then
    let index := t.firstFree - 1
    if index < N then
      match (t.entries index).holder with
      | .next n =>
        let t := { t with firstFree := n, lastFree := if n = NONE then NONE else t.lastFree }
        some (.ok (index % 2 ^ 16), t.hold index thread)
      | .thread _ => none
    else none
  else some (.error .limitReached, t)

/-- `taken` (token.rs:150). -/
def takenEntry (N : Nat) (t : Table T) (index : Nat) : Option (Entry T) :=
  if index < N ∧ (t.entries index).word &&& TAKEN ≠ 0 then some (t.entries index) else none

/-- The last number given back, or the head of the list, names the number (token.rs:171). -/
def linkBack (t : Table T) (index : Nat) : Table T :=
  if t.lastFree = NONE then { t with firstFree := index + 1 }
  else t.setEntry (t.lastFree - 1) { t.entries (t.lastFree - 1) with holder := .next (index + 1) }

/-- `free` (token.rs:159). -/
def free (N : Nat) (t : Table T) (index : Nat) : Option (Table T) :=
  (t.takenEntry N index).bind fun e =>
  let word := without e.word TAKEN
  let t := { t.setEntry index ⟨.next NONE, word⟩ with taken := t.taken - 1 }
  if word &&& MAX_COUNT = MAX_COUNT then some { t with retired := t.retired + 1 }
  else some { t.linkBack index with lastFree := index + 1 }

/-- `check_count` (token.rs:179). -/
def checkCount (N : Nat) (t : Table T) (index : Nat) : Option (Except Error Unit) :=
  (t.takenEntry N index).map fun e => if e.word &&& MAX_COUNT = MAX_COUNT then .error .badState else .ok ()

/-- `accept` (token.rs:191). -/
def accept (N : Nat) (t : Table T) (index : Nat) : Option (Nat × Table T) :=
  match t.checkCount N index with
  | some (.ok ()) =>
    let e := t.entries index
    let word := without e.word DEAD + 1
    some ((word &&& MAX_COUNT) <<< INDEX_BITS ||| index, t.setEntry index { e with word := word })
  | _ => none

/-- `mark_dead` (token.rs:201). -/
def markDead (N : Nat) (t : Table T) (index : Nat) : Option (Table T) :=
  (t.takenEntry N index).map fun e => t.setEntry index { e with word := e.word ||| DEAD }

/-- `check` (token.rs:212). -/
def check (N : Nat) (t : Table T) (token : Nat) : Option (Except Error T) :=
  let index := token &&& (1 <<< INDEX_BITS - 1)
  let count := token >>> INDEX_BITS
  if index < N then
    let e := t.entries index
    if count = 0 ∨ e.word &&& MAX_COUNT ≠ count then some (.error .badState)
    else if e.word &&& DEAD ≠ 0 then some (.error .peerClosed)
    else if e.word &&& TAKEN = 0 then some (.error .badState)
    else
      match e.holder with
      | .thread x => some (.ok x)
      | .next _ => none
  else some (.error .badState)

end Table

/-! ## Runs -/

inductive Op (T : Type) where
  | alloc (thread : T)
  | free (index : Nat)
  | checkCount (index : Nat)
  | accept (index : Nat)
  | markDead (index : Nat)

/-- What a call answered. -/
inductive Event (T : Type) where
  | allocated (index : Nat) (thread : T)
  | refused
  | freed (index : Nat)
  | checked (index : Nat) (ok : Bool)
  | accepted (index token : Nat)
  | marked (index : Nat)
  deriving DecidableEq

def exec (N : Nat) (t : Table T) : Op T → Option (Table T × Event T)
  | .alloc x =>
    match t.alloc N x with
    | some (.ok i, t) => some (t, .allocated i x)
    | some (.error _, t) => some (t, .refused)
    | none => none
  | .free i => (t.free N i).map (·, .freed i)
  | .checkCount i => (t.checkCount N i).map fun r => (t, .checked i r.isOk)
  | .accept i => (t.accept N i).map fun r => (r.2, .accepted i r.1)
  | .markDead i => (t.markDead N i).map (·, .marked i)

def run (N : Nat) (t : Table T) (tr : List (Event T)) : List (Op T) → Option (Table T × List (Event T))
  | [] => some (t, tr)
  | op :: ops => (exec N t op).bind fun r => run N r.1 (tr ++ [r.2]) ops

/-! ## The book -/

/-- What the table is for. -/
structure Book (T : Type) where
  /-- Numbers handed out at least once. -/
  used : Nat
  holder : Nat → Option T
  /-- The requests that were accepted on a number. -/
  count : Nat → Nat
  dead : Nat → Bool
  /-- The numbers given back, from the first to the last. -/
  back : List Nat
  retired : List Nat

namespace Book

def new : Book T := ⟨0, fun _ => none, fun _ => 0, fun _ => false, [], []⟩

def see (b : Book T) : Event T → Book T
  | .allocated i x => { b with
      used := max b.used (i + 1)
      holder := update b.holder i (some x)
      dead := update b.dead i false
      back := b.back.erase i }
  | .refused => b
  | .freed i =>
    let b := { b with holder := update b.holder i none }
    if b.count i = MAX_COUNT then { b with retired := i :: b.retired } else { b with back := b.back ++ [i] }
  | .checked _ _ => b
  | .accepted i _ => { b with
      count := update b.count i (b.count i + 1)
      dead := update b.dead i false }
  | .marked i => { b with dead := update b.dead i true }

/-- The book after the events of a trace. -/
def after (b : Book T) (tr : List (Event T)) : Book T := tr.foldl see b

theorem after_append (b : Book T) (tr : List (Event T)) (e : Event T) : b.after (tr ++ [e]) = (b.after tr).see e := by
  rw [after, foldl_append]
  rfl

end Book

/-- The answer is what the book before the call makes one expect. -/
def Event.Right (N : Nat) (b : Book T) : Event T → Prop
  | .allocated i _ => i = b.used ∧ b.used < N ∨ b.used = N ∧ b.back.head? = some i
  | .refused => b.used = N ∧ b.back = []
  | .freed i | .marked i => (b.holder i).isSome
  | .checked i ok => ok = decide (b.count i ≠ MAX_COUNT)
  | .accepted i token => i < N ∧ b.count i < MAX_COUNT ∧ token = 2 ^ 16 * (b.count i + 1) + i

/-- What the kernel promises: only numbers that are taken are used, and a request is accepted only when
`check_count` lets it in. -/
def Op.Meets (N : Nat) (t : Table T) (b : Book T) : Op T → Prop
  | .alloc _ => True
  | .free i | .checkCount i | .markDead i => (b.holder i).isSome
  | .accept i => t.checkCount N i = some (.ok ())

/-- Every call of the run meets its contract. -/
def Met (N : Nat) (t : Table T) (tr : List (Event T)) : List (Op T) → Prop
  | [] => True
  | op :: ops => op.Meets N t (Book.new.after tr) ∧ ∀ r, exec N t op = some r → Met N r.1 (tr ++ [r.2]) ops

open Table Book

/-! ## The word of an entry -/

/-- A word from its count and its two bits. -/
def pack (count : Nat) (dead taken : Bool) : Nat := 2 ^ 62 * (2 * taken.toNat + dead.toNat) + count

section
variable {c b : Nat} {d e k l : Bool}

theorem testBit_pack (hc : c < 2 ^ 62) (i : Nat) :
    (pack c d k).testBit i = if i < 62 then c.testBit i else if i = 62 then d else decide (i = 63) && k := by
  rw [pack, Nat.testBit_two_pow_mul_add _ hc]
  split
  · rfl
  next hi =>
  have htwo : ∀ n, (2 * k.toNat + d.toNat).testBit n = if n = 0 then d else decide (n = 1) && k := by
    intro n
    match n with
    | 0 => cases d <;> cases k <;> rfl
    | 1 => cases d <;> cases k <;> rfl
    | n + 2 =>
      have hz : (2 * k.toNat + d.toNat) / 2 / 2 = 0 := by cases d <;> cases k <;> rfl
      rw [Nat.testBit_succ, Nat.testBit_succ, hz]
      simp
  rw [htwo]
  by_cases h62 : i = 62
  · subst h62
    simp
  · rw [if_neg (by omega), if_neg h62]
    congr 1
    exact decide_eq_decide.2 (by omega)

theorem pack_and (hc : c < 2 ^ 62) (hb : b < 2 ^ 62) :
    pack c d k &&& pack b e l = pack (c &&& b) (d && e) (k && l) := by
  refine Nat.eq_of_testBit_eq fun i => ?_
  rw [Nat.testBit_and, testBit_pack hc, testBit_pack hb, testBit_pack (lt_of_le_of_lt Nat.and_le_left hc), Nat.testBit_and]
  split_ifs
  · rfl
  · rfl
  · cases decide (i = 63) <;> rfl

theorem pack_or (hc : c < 2 ^ 62) (hb : b < 2 ^ 62) :
    pack c d k ||| pack b e l = pack (c ||| b) (d || e) (k || l) := by
  refine Nat.eq_of_testBit_eq fun i => ?_
  rw [Nat.testBit_or, testBit_pack hc, testBit_pack hb, testBit_pack (Nat.or_lt_two_pow hc hb), Nat.testBit_or]
  split_ifs
  · rfl
  · rfl
  · cases decide (i = 63) <;> rfl

section
variable (hc : c ≤ MAX_COUNT)
include hc

theorem lt_of_count : c < 2 ^ 62 := lt_of_le_of_lt hc (by decide)

theorem pack_count : pack c d k &&& MAX_COUNT = c := by
  unfold MAX_COUNT at hc ⊢
  rw [Nat.and_two_pow_sub_one_eq_mod, pack]
  omega

theorem pack_taken : pack c d k &&& TAKEN = 0 ↔ k = false := by
  rw [TAKEN, and_bit_eq_zero, testBit_pack (lt_of_count hc)]
  simp

theorem pack_dead : pack c d k &&& DEAD = 0 ↔ d = false := by
  rw [DEAD, and_bit_eq_zero, testBit_pack (lt_of_count hc)]
  simp

theorem pack_hold : pack c d k &&& MAX_COUNT ||| TAKEN = pack c false true := by
  have hcount : c = pack c false false := by simp [pack]
  rw [pack_count hc, show TAKEN = pack 0 false true by decide]
  nth_rewrite 1 [hcount]
  rw [pack_or (lt_of_count hc) (by decide), Nat.or_zero]
  rfl

/-- A mask with the bits of the count. -/
theorem without_pack {m : Nat} (hm : (2 ^ 64 - 1) ^^^ m = pack (2 ^ 62 - 1) e l) :
    without (pack c d k) m = pack c (d && e) (k && l) := by
  rw [without, hm, pack_and (lt_of_count hc) (by decide), Nat.and_two_pow_sub_one_of_lt_two_pow (lt_of_count hc)]

theorem pack_free : without (pack c d k) TAKEN = pack c d false := by
  rw [without_pack hc (e := true) (l := false) (by decide), Bool.and_true, Bool.and_false]

omit hc in
theorem pack_accept (hc : c < MAX_COUNT) : without (pack c d k) DEAD + 1 = pack (c + 1) false k := by
  rw [without_pack hc.le (e := false) (l := true) (by decide), Bool.and_false, Bool.and_true, pack, pack]
  omega

theorem pack_mark : pack c d k ||| DEAD = pack c true k := by
  rw [show DEAD = pack 0 true false by decide, pack_or (lt_of_count hc) (by decide), Nat.or_zero, Bool.or_true,
    Bool.or_false]

end

end

/-! ## The invariant -/

/-- What follows a number in the list of those given back; a number is named i + 1. -/
def Table.nextOf (t : Table T) (k : Nat) : Nat :=
  match (t.entries (k - 1)).holder with
  | .next n => n
  | .thread _ => NONE

/-- The number of taken numbers. -/
def Book.held (N : Nat) (b : Book T) : Nat := ((Finset.range N).filter fun i => (b.holder i).isSome).card

/-- The table keeps the book. -/
structure Inv (N : Nat) (t : Table T) (b : Book T) : Prop where
  word : ∀ i < N, (t.entries i).word = pack (b.count i) (b.dead i) (b.holder i).isSome
  thread : ∀ i < N, ∀ x, b.holder i = some x → (t.entries i).holder = .thread x
  count : ∀ i, b.count i ≤ MAX_COUNT
  used : t.used = b.used ∧ b.used ≤ N
  fresh : ∀ i, b.used ≤ i → b.holder i = none ∧ b.count i = 0
  chain : IsChain t.nextOf NONE t.firstFree (b.back.map (· + 1))
  last : t.lastFree = (b.back.getLast?.map (· + 1)).getD NONE
  next : ∀ i ∈ b.back, ∃ n, (t.entries i).holder = .next n
  back : ∀ i, i ∈ b.back ↔ i < b.used ∧ b.holder i = none ∧ b.count i ≠ MAX_COUNT
  retired : ∀ i, i ∈ b.retired ↔ i < b.used ∧ b.holder i = none ∧ b.count i = MAX_COUNT
  nodup : b.back.Nodup ∧ b.retired.Nodup
  taken : t.taken = b.held N
  gone : t.retired = b.retired.length

variable {N : Nat} {t t' : Table T} {b b' : Book T} {i : Nat} {op : Op T} {tr : List (Event T)} {e : Event T}
  {ops : List (Op T)}

namespace Inv

section
variable (h : Inv N t b)
include h

theorem holder_lt (hi : (b.holder i).isSome) : i < b.used := by
  by_contra hge
  rw [(h.fresh i (by omega)).1] at hi
  cases hi

theorem takenEntry (hi : (b.holder i).isSome) : t.takenEntry N i = some (t.entries i) := by
  have hlt : i < N := lt_of_lt_of_le (h.holder_lt hi) h.used.2
  have hbit : (t.entries i).word &&& TAKEN ≠ 0 := by
    rw [h.word i hlt, hi, ne_eq, pack_taken (h.count i)]
    simp
  rw [Table.takenEntry, if_pos ⟨hlt, hbit⟩]

/-- An entry that is taken is so in the book. -/
theorem of_takenEntry {e : Entry T} (he : t.takenEntry N i = some e) :
    i < N ∧ (b.holder i).isSome ∧ e = t.entries i := by
  unfold Table.takenEntry at he
  split at he
  · next hi =>
    obtain ⟨hlt, hbit⟩ := hi
    rw [h.word i hlt, ne_eq, pack_taken (h.count i), Bool.not_eq_false] at hbit
    exact ⟨hlt, hbit, (Option.some.inj he).symm⟩
  · cases he

theorem checkCount (hi : (b.holder i).isSome) :
    t.checkCount N i = some (if b.count i = MAX_COUNT then .error .badState else .ok ()) := by
  have hlt : i < N := lt_of_lt_of_le (h.holder_lt hi) h.used.2
  rw [Table.checkCount, h.takenEntry hi, Option.map_some, h.word i hlt, pack_count (h.count i)]

theorem of_checkCount (hi : t.checkCount N i = some (.ok ())) :
    i < N ∧ (b.holder i).isSome ∧ b.count i < MAX_COUNT := by
  obtain ⟨e, he, -⟩ := Option.map_eq_some_iff.1 hi
  obtain ⟨hlt, hsome, -⟩ := h.of_takenEntry he
  rw [h.checkCount hsome] at hi
  refine ⟨hlt, hsome, ?_⟩
  have := h.count i
  split at hi
  · cases hi
  · omega

/-- The list of free numbers through a change of entries outside it. -/
theorem chain_congr (he : ∀ i ∈ b.back, (t'.entries i).holder = (t.entries i).holder) :
    IsChain t'.nextOf NONE t.firstFree (b.back.map (· + 1)) := by
  refine h.chain.congr fun k hk => ?_
  obtain ⟨j, hj, rfl⟩ := mem_map.1 hk
  unfold nextOf
  rw [Nat.add_sub_cancel, he j hj]

/-- The word of a taken entry changes, and with it the count and the mark. -/
theorem rewrite {c : Nat} {d : Bool} (hi : i < N) (hsome : (b.holder i).isSome) (hc : c ≤ MAX_COUNT) :
    Inv N (t.setEntry i { t.entries i with word := pack c d true })
      { b with count := update b.count i c, dead := update b.dead i d } := by
  have hentry : ∀ j, ((t.setEntry i { t.entries i with word := pack c d true }).entries j).holder =
      (t.entries j).holder := by
    intro j
    by_cases hj : j = i
    · subst hj
      simp [setEntry]
    · simp [setEntry, hj]
  have hcount : ∀ j, b.holder j = none → update b.count i c j = b.count j := by
    intro j hj
    refine update_of_ne ?_ ..
    rintro rfl
    rw [hj] at hsome
    cases hsome
  refine ⟨fun j hj => ?_, fun j hj x hx => (hentry j).trans (h.thread j hj x hx), fun j => ?_, h.used, fun j hj => ?_,
    h.chain_congr fun j _ => hentry j, h.last, fun j hj => ?_, fun j => ?_, fun j => ?_, h.nodup, h.taken, h.gone⟩
  · by_cases hji : j = i
    · subst hji
      simp [setEntry, hsome]
    · simpa [setEntry, hji] using h.word j hj
  · by_cases hji : j = i
    · subst hji
      simpa using hc
    · simpa [hji] using h.count j
  · obtain ⟨hnone, h0⟩ := h.fresh j hj
    exact ⟨hnone, (hcount j hnone).trans h0⟩
  · rw [hentry]
    exact h.next j hj
  · rw [h.back]
    exact and_congr_right fun _ => and_congr_right fun hj => by simp only [hcount j hj]
  · rw [h.retired]
    exact and_congr_right fun _ => and_congr_right fun hj => by simp only [hcount j hj]

end

/-- A thread comes onto a number or leaves it. -/
theorem held_update {o : Option T} (hi : i < N) :
    held N { b with holder := update b.holder i o } + (b.holder i).isSome.toNat =
      b.held N + o.isSome.toNat := by
  have hsplit : ∀ f : Nat → Option T, ((Finset.range N).filter fun j => (f j).isSome).card =
      (((Finset.range N).erase i).filter fun j => (f j).isSome).card + (f i).isSome.toNat := by
    intro f
    rw [← Finset.insert_erase (Finset.mem_range.2 hi), Finset.filter_insert]
    cases hf : (f i).isSome with
    | true =>
      rw [if_pos rfl, Finset.card_insert_of_notMem (by simp), Finset.erase_insert (by simp)]
      rfl
    | false =>
      rw [Finset.erase_insert (by simp)]
      rfl
  have hsame : (((Finset.range N).erase i).filter fun j => (update b.holder i o j).isSome) =
      ((Finset.range N).erase i).filter fun j => (b.holder j).isSome := by
    refine Finset.filter_congr fun j hj => ?_
    rw [update_of_ne (Finset.ne_of_mem_erase hj)]
  unfold held
  rw [hsplit, hsplit, hsame]
  simp only [update_self]
  omega

end Inv

/-! ## Taking a number and giving it back -/

/-- **A thread comes onto a number** that is not handed out yet or was given back, and is off the list. -/
theorem hold_inv {used first last : Nat} {x : T} (h : Inv N t b) (hi : i < N) (hfree : i = b.used ∨ i ∈ b.back)
    (hused : used = max b.used (i + 1)) (hchain : IsChain t.nextOf NONE first ((b.back.erase i).map (· + 1)))
    (hlast : last = ((b.back.erase i).getLast?.map (· + 1)).getD NONE) :
    Inv N (({ t with used := used, firstFree := first, lastFree := last } : Table T).hold i x)
      (b.see (.allocated i x)) := by
  obtain ⟨hnone, hcount⟩ : b.holder i = none ∧ b.count i ≠ MAX_COUNT := by
    rcases hfree with rfl | hmem
    · obtain ⟨h1, h2⟩ := h.fresh b.used le_rfl
      exact ⟨h1, by rw [h2]; decide⟩
    · exact ((h.back i).1 hmem).2
  have hle : i ≤ b.used := by
    rcases hfree with rfl | hmem
    · exact le_rfl
    · exact ((h.back i).1 hmem).1.le
  have hself : (t.hold i x).entries i = ⟨.thread x, (t.entries i).word &&& MAX_COUNT ||| TAKEN⟩ := by
    simp [hold, setEntry]
  have hother : ∀ {j}, j ≠ i → (t.hold i x).entries j = t.entries j := fun hj => by simp [hold, setEntry, hj]
  have herase : ∀ {j}, j ∈ b.back.erase i ↔ j ≠ i ∧ j ∈ b.back := h.nodup.1.mem_erase_iff
  have hlt : ∀ {j}, j ≠ i → (j < max b.used (i + 1) ↔ j < b.used) := fun hj => by omega
  refine ⟨fun j hj => ?_, fun j hj y hy => ?_, h.count, ⟨hused, ?_⟩, fun j hj => ?_, ?_, hlast, fun j hj => ?_,
    fun j => ?_, fun j => ?_, ⟨h.nodup.1.erase i, h.nodup.2⟩, ?_, h.gone⟩
  · simp only [see]
    show ((t.hold i x).entries j).word = _
    by_cases hji : j = i
    · subst hji
      rw [hself, update_self, update_self, h.word j hj]
      exact pack_hold (h.count j)
    · rw [hother hji, update_of_ne hji, update_of_ne hji]
      exact h.word j hj
  · simp only [see] at hy
    show ((t.hold i x).entries j).holder = _
    by_cases hji : j = i
    · subst hji
      rw [update_self, Option.some.injEq] at hy
      rw [hself, hy]
    · rw [update_of_ne hji] at hy
      rw [hother hji]
      exact h.thread j hj y hy
  · have := h.used.2
    simp only [see]
    omega
  · simp only [see] at hj ⊢
    rw [update_of_ne (by omega)]
    exact h.fresh j (by omega)
  · refine hchain.congr fun k hk => ?_
    obtain ⟨j, hj, rfl⟩ := mem_map.1 hk
    show (t.hold i x).nextOf (j + 1) = _
    unfold nextOf
    rw [Nat.add_sub_cancel, hother (herase.1 hj).1]
  · obtain ⟨n, hn⟩ := h.next j (herase.1 hj).2
    exact ⟨n, (congrArg Entry.holder (hother (herase.1 hj).1)).trans hn⟩
  · simp only [see]
    rw [herase]
    by_cases hji : j = i
    · subst hji
      simp
    · rw [h.back, hlt hji]
      simp [hji]
  · simp only [see]
    by_cases hji : j = i
    · subst hji
      rw [h.retired]
      simp [hcount]
    · rw [update_of_ne hji, h.retired, hlt hji]
  · have hheld := Inv.held_update (b := b) (o := some x) hi
    rw [hnone] at hheld
    rw [h.taken]
    exact hheld.symm

theorem alloc_spec (hN : N ≤ 2 ^ 16) (h : Inv N t b) (x : T) :
    (b.used = N ∧ b.back = [] ∧ t.alloc N x = some (.error .limitReached, t)) ∨
    ∃ i t', t.alloc N x = some (.ok i, t') ∧ Event.Right N b (.allocated i x) ∧ Inv N t' (b.see (.allocated i x)) := by
  obtain ⟨hused, hle⟩ := h.used
  unfold alloc
  by_cases hlt : t.used < N
  · -- a number never handed out
    have hnot : t.used ∉ b.back := fun hm => absurd ((h.back _).1 hm).1 (by omega)
    rw [if_pos hlt]
    dsimp only
    rw [Nat.mod_eq_of_lt (by omega)]
    refine .inr ⟨t.used, _, rfl, .inl ⟨hused, by omega⟩, hold_inv h hlt (.inl hused) ?_ ?_ ?_⟩
    · omega
    · rw [erase_of_not_mem hnot]
      exact h.chain
    · rw [erase_of_not_mem hnot]
      exact h.last
  · have hfull : b.used = N := by omega
    rw [if_neg hlt]
    cases hback : b.back with
    | nil =>
      have hfirst : t.firstFree = NONE := by
        have := h.chain
        rwa [hback] at this
      exact .inl ⟨hfull, rfl, by rw [if_neg (by simp [hfirst])]⟩
    | cons i rest =>
      have hchain := h.chain
      rw [hback] at hchain
      obtain ⟨hfirst, hne, hrest⟩ := hchain
      have hmem : i ∈ b.back := by rw [hback]; exact mem_cons_self
      have hiN : i < N := lt_of_lt_of_le ((h.back i).1 hmem).1 hle
      obtain ⟨n, hn⟩ := h.next i hmem
      have hnext : t.nextOf (i + 1) = n := by rw [nextOf, Nat.add_sub_cancel, hn]
      have herase : b.back.erase i = rest := by rw [hback, erase_cons_head]
      rw [hnext] at hrest
      rw [hfirst]
      simp only [Nat.add_sub_cancel, if_pos hiN, hn]
      rw [Nat.mod_eq_of_lt (by omega)]
      refine .inr ⟨i, _, rfl, .inr ⟨hfull, by rw [hback]; rfl⟩, hold_inv h hiN (.inr hmem) ?_ ?_ ?_⟩
      · have := ((h.back i).1 hmem).1
        omega
      · rw [herase]
        exact hrest
      · rw [herase]
        have hlast := h.last
        rw [hback] at hlast
        by_cases hn0 : n = NONE
        · have hnil : rest = [] := by simpa using hrest.eq_nil.1 hn0
          simp only [hn0, hnil]
          rfl
        · have hrne : rest ≠ [] := by
            rintro rfl
            exact hn0 hrest
          simp only [hn0, if_false, hlast]
          rw [getLast?_cons_of_ne_nil hrne]

/-- **A thread leaves a number**, which goes to the end of the list or retires. -/
theorem leave_inv {back retired : List Nat} (h : Inv N t b) (hsome : (b.holder i).isSome)
    (hword : ∀ j < N, (t'.entries j).word = if j = i then pack (b.count i) (b.dead i) false else (t.entries j).word)
    (hthread : ∀ j, j ≠ i → (b.holder j).isSome → (t'.entries j).holder = (t.entries j).holder)
    (hused : t'.used = t.used) (htaken : t'.taken = t.taken - 1)
    (hchain : IsChain t'.nextOf NONE t'.firstFree (back.map (· + 1)))
    (hlast : t'.lastFree = (back.getLast?.map (· + 1)).getD NONE)
    (hnext : ∀ j ∈ back, ∃ n, (t'.entries j).holder = .next n)
    (hback : ∀ j, j ∈ back ↔ j ∈ b.back ∨ j = i ∧ b.count i ≠ MAX_COUNT)
    (hretired : ∀ j, j ∈ retired ↔ j ∈ b.retired ∨ j = i ∧ b.count i = MAX_COUNT)
    (hnodup : back.Nodup ∧ retired.Nodup) (hgone : t'.retired = retired.length) :
    Inv N t' { b with holder := update b.holder i none, back := back, retired := retired } := by
  have hlt := h.holder_lt hsome
  refine ⟨fun j hj => ?_, fun j hj x hx => ?_, h.count, ⟨hused.trans h.used.1, h.used.2⟩, fun j hj => ?_, hchain, hlast,
    hnext, fun j => ?_, fun j => ?_, hnodup, ?_, hgone⟩
  · rw [hword j hj]
    by_cases hji : j = i
    · subst hji
      simp
    · simpa [hji] using h.word j hj
  · by_cases hji : j = i
    · subst hji
      simp at hx
    · have hx : b.holder j = some x := by simpa [hji] using hx
      rw [hthread j hji (by rw [hx]; rfl)]
      exact h.thread j hj x hx
  · have hji : j ≠ i := by
      rintro rfl
      exact absurd hlt (not_lt.2 hj)
    simpa [hji] using h.fresh j hj
  · rw [hback, h.back]
    by_cases hji : j = i
    · subst hji
      simp [hlt]
    · simp [hji]
  · rw [hretired, h.retired]
    by_cases hji : j = i
    · subst hji
      simp [hlt]
    · simp [hji]
  · have hheld := Inv.held_update (b := b) (o := none) (lt_of_lt_of_le hlt h.used.2)
    rw [hsome] at hheld
    simp only [Bool.toNat_true, Option.isSome_none, Bool.toNat_false] at hheld
    show t'.taken = held N { b with holder := update b.holder i none }
    rw [htaken, h.taken]
    omega

/-- A number comes to the end of the list: the last of the others names it, or the head of the list. -/
theorem linkBack_spec {back : List Nat} (hchain : IsChain t.nextOf NONE t.firstFree (back.map (· + 1)))
    (hlast : t.lastFree = (back.getLast?.map (· + 1)).getD NONE) (hnodup : (back ++ [i]).Nodup)
    (hend : (t.entries i).holder = .next NONE) :
    ∃ first entries, t.linkBack i = { t with firstFree := first, entries := entries } ∧
      IsChain ({ t with entries := entries } : Table T).nextOf NONE first ((back ++ [i]).map (· + 1)) ∧
      ∀ j, (entries j).word = (t.entries j).word ∧
        ((entries j).holder = (t.entries j).holder ∨ j ∈ back ∧ (entries j).holder = .next (i + 1)) := by
  rcases eq_nil_or_concat back with rfl | ⟨l, z, rfl⟩
  · refine ⟨i + 1, t.entries, if_pos hlast, ⟨rfl, Nat.succ_ne_zero i, ?_⟩, fun j => ⟨rfl, .inl rfl⟩⟩
    simp [nextOf, hend, Chain.IsChain]
  · rw [concat_eq_append] at hchain hlast hnodup ⊢
    have hz : t.lastFree = z + 1 := by rw [hlast]; simp
    have hlink : t.linkBack i = t.setEntry z { t.entries z with holder := .next (i + 1) } := by
      rw [linkBack, if_neg (by rw [hz]; exact Nat.succ_ne_zero z), hz, Nat.add_sub_cancel]
    have hmap := hnodup.map (f := (· + 1)) Nat.succ_injective
    rw [map_append, map_append] at hmap
    rw [map_append] at hchain
    obtain ⟨hl, -, hdisj⟩ := nodup_append.1 hmap
    refine ⟨t.firstFree, _, hlink, ?_, fun j => ?_⟩
    · rw [map_append, map_append]
      refine (hchain.append (i := i + 1) hl (fun hm => hdisj _ hm _ mem_cons_self rfl) (Nat.succ_ne_zero i)).congr
        fun k hk => ?_
      obtain ⟨j, -, rfl⟩ := mem_map.1 (show k ∈ (l ++ [z] ++ [i]).map (· + 1) by simpa using hk)
      by_cases hjz : j = z
      · subst hjz
        simp [nextOf]
      · by_cases hji : j = i
        · subst hji
          simp [nextOf, hjz, hend]
        · simp [nextOf, hjz, hji]
    · by_cases hjz : j = z
      · subst hjz
        simp
      · simp [hjz]

theorem free_spec (h : Inv N t b) (hsome : (b.holder i).isSome) :
    ∃ t', t.free N i = some t' ∧ Inv N t' (b.see (.freed i)) := by
  have hlt : i < N := lt_of_lt_of_le (h.holder_lt hsome) h.used.2
  have hnot : ∀ {l : List Nat}, (∀ j, j ∈ l → b.holder j = none) → i ∉ l := by
    intro l hl hm
    rw [hl i hm] at hsome
    cases hsome
  have hnotback : i ∉ b.back := hnot fun j hj => ((h.back j).1 hj).2.1
  have hnotretired : i ∉ b.retired := hnot fun j hj => ((h.retired j).1 hj).2.1
  have hword : without (t.entries i).word TAKEN = pack (b.count i) (b.dead i) false := by
    rw [h.word i hlt]
    exact pack_free (h.count i)
  -- the entries with the number off its thread
  obtain ⟨entries, hentries⟩ : ∃ entries, entries =
    update t.entries i ⟨.next NONE, pack (b.count i) (b.dead i) false⟩ := ⟨_, rfl⟩
  have hself : entries i = ⟨.next NONE, pack (b.count i) (b.dead i) false⟩ := by rw [hentries, update_self]
  have hother : ∀ j, j ≠ i → entries j = t.entries j := fun j hj => by rw [hentries, update_of_ne hj]
  have hwords : ∀ j, (entries j).word = if j = i then pack (b.count i) (b.dead i) false else (t.entries j).word := by
    intro j
    by_cases hji : j = i
    · subst hji
      rw [hself, if_pos rfl]
    · rw [hother j hji, if_neg hji]
  have hlist : ∀ j ∈ b.back, entries j = t.entries j := fun j hj => hother j fun he => hnotback (he ▸ hj)
  have hchain : IsChain { t with entries := entries }.nextOf NONE t.firstFree (b.back.map (· + 1)) :=
    h.chain_congr fun j hj => congrArg Entry.holder (hlist j hj)
  have hnext : ∀ j ∈ b.back, ∃ n, (entries j).holder = .next n := fun j hj => hlist j hj ▸ h.next j hj
  unfold free
  rw [h.takenEntry hsome, Option.bind_some]
  dsimp only
  rw [hword, pack_count (h.count i), setEntry, ← hentries]
  by_cases hmax : b.count i = MAX_COUNT
  · -- the number retires
    rw [if_pos hmax, see, if_pos hmax]
    refine ⟨_, rfl, leave_inv h hsome (fun j _ => hwords j) (fun j hj _ => congrArg Entry.holder (hother j hj)) rfl rfl
      hchain h.last hnext (fun j => ?_) (fun j => ?_) ⟨h.nodup.1, nodup_cons.2 ⟨hnotretired, h.nodup.2⟩⟩ ?_⟩
    · simp [hmax]
    · simp [hmax, or_comm]
    · simp [h.gone]
  · have hnodup : (b.back ++ [i]).Nodup :=
      nodup_append.2 ⟨h.nodup.1, nodup_singleton i, fun a ha c hc hac => hnotback (by
        rw [mem_singleton] at hc
        rwa [← hc, ← hac])⟩
    obtain ⟨first, last, hlink, hchain', hlast⟩ := linkBack_spec (t := { t with entries := entries, taken := t.taken - 1 })
      hchain h.last hnodup (congrArg Entry.holder hself)
    rw [if_neg hmax, see, if_neg hmax, hlink]
    refine ⟨_, rfl, leave_inv h hsome (fun j _ => (hlast j).1.trans (hwords j)) (fun j hj hs => ?_) rfl rfl hchain'
      (by simp) (fun j hj => ?_) (fun j => ?_) (fun j => ?_) ⟨hnodup, h.nodup.2⟩ h.gone⟩
    · refine ((hlast j).2.resolve_right fun hm => ?_).trans (congrArg Entry.holder (hother j hj))
      rw [((h.back j).1 hm.1).2.1] at hs
      cases hs
    · rcases (hlast j).2 with he | ⟨-, he⟩
      · rw [he]
        rcases mem_append.1 hj with hj | hj
        · exact hnext j hj
        · exact ⟨NONE, by rw [mem_singleton.1 hj]; exact congrArg Entry.holder hself⟩
      · exact ⟨i + 1, he⟩
    · simp [hmax]
    · simp [hmax]

/-! ## Requests -/

theorem accept_spec (hN : N ≤ 2 ^ 16) (h : Inv N t b) (hi : t.checkCount N i = some (.ok ())) :
    ∃ t', t.accept N i = some (2 ^ 16 * (b.count i + 1) + i, t') ∧ i < N ∧ b.count i < MAX_COUNT ∧
      Inv N t' (b.see (.accepted i (2 ^ 16 * (b.count i + 1) + i))) := by
  obtain ⟨hlt, hsome, hmax⟩ := h.of_checkCount hi
  have hword : without (t.entries i).word DEAD + 1 = pack (b.count i + 1) false true := by
    rw [h.word i hlt, hsome]
    exact pack_accept hmax
  have htoken : (pack (b.count i + 1) false true &&& MAX_COUNT) <<< INDEX_BITS ||| i =
      2 ^ 16 * (b.count i + 1) + i := by
    rw [pack_count hmax, INDEX_BITS, Nat.shiftLeft_eq, mul_comm]
    exact (Nat.two_pow_add_eq_or_of_lt (by omega) _).symm
  refine ⟨t.setEntry i { t.entries i with word := pack (b.count i + 1) false true }, ?_, hlt, hmax, ?_⟩
  · rw [accept, hi]
    dsimp only
    rw [hword, htoken]
  · exact h.rewrite hlt hsome hmax

theorem markDead_spec (h : Inv N t b) (hsome : (b.holder i).isSome) :
    ∃ t', t.markDead N i = some t' ∧ Inv N t' (b.see (.marked i)) := by
  have hlt : i < N := lt_of_lt_of_le (h.holder_lt hsome) h.used.2
  have h' := h.rewrite (d := true) hlt hsome (h.count i)
  rw [update_eq_self] at h'
  refine ⟨_, ?_, h'⟩
  rw [markDead, h.takenEntry hsome, Option.map_some, h.word i hlt, hsome, pack_mark (h.count i)]

theorem check_spec (h : Inv N t b) (token : Nat) :
    t.check N token = some (
      if token % 2 ^ 16 < N ∧ token / 2 ^ 16 ≠ 0 ∧ b.count (token % 2 ^ 16) = token / 2 ^ 16 then
        if b.dead (token % 2 ^ 16) then .error .peerClosed
        else (b.holder (token % 2 ^ 16)).elim (.error .badState) .ok
      else .error .badState) := by
  have hindex : token &&& (1 <<< INDEX_BITS - 1) = token % 2 ^ 16 := Nat.and_two_pow_sub_one_eq_mod token 16
  have hcount : token >>> INDEX_BITS = token / 2 ^ 16 := Nat.shiftRight_eq_div_pow _ _
  unfold check
  rw [hindex, hcount]
  dsimp only
  obtain ⟨i, hi⟩ : ∃ i, i = token % 2 ^ 16 := ⟨_, rfl⟩
  obtain ⟨c, hc⟩ : ∃ c, c = token / 2 ^ 16 := ⟨_, rfl⟩
  rw [← hi, ← hc]
  by_cases hlt : i < N
  · have hdead : pack (b.count i) (b.dead i) (b.holder i).isSome &&& DEAD ≠ 0 ↔ b.dead i = true := by
      rw [ne_eq, pack_dead (h.count i), Bool.not_eq_false]
    have htaken : pack (b.count i) (b.dead i) (b.holder i).isSome &&& TAKEN = 0 ↔ b.holder i = none := by
      rw [pack_taken (h.count i)]
      simp
    rw [if_pos hlt, h.word i hlt]
    simp only [pack_count (h.count i), hdead, htaken]
    by_cases hgood : c ≠ 0 ∧ b.count i = c
    · have hbad : ¬ (c = 0 ∨ b.count i ≠ c) := by simp [hgood]
      rw [if_neg hbad, if_pos (show i < N ∧ c ≠ 0 ∧ b.count i = c from ⟨hlt, hgood⟩)]
      by_cases hd : b.dead i = true
      · rw [if_pos hd, if_pos hd]
      · rw [if_neg hd, if_neg hd]
        cases hh : b.holder i with
        | none => rw [if_pos rfl]; rfl
        | some x => rw [h.thread i hlt x hh]; rfl
    · have hbad : c = 0 ∨ b.count i ≠ c := by
        by_contra hno
        rw [not_or] at hno
        exact hgood ⟨hno.1, by simpa using hno.2⟩
      rw [if_pos hbad, if_neg fun hg => hgood hg.2]
  · rw [if_neg hlt, if_neg fun hg => hlt hg.1]

/-- **`available`**: the numbers neither taken nor retired. -/
theorem available_spec (h : Inv N t b) :
    t.available N = ((Finset.range N).filter fun i => b.holder i = none ∧ i ∉ b.retired).card := by
  have hretired : ((Finset.range N).filter fun i => i ∈ b.retired).card = b.retired.length := by
    rw [← toFinset_card_of_nodup h.nodup.2]
    congr 1
    ext i
    rw [Finset.mem_filter, Finset.mem_range, mem_toFinset]
    refine and_iff_right_of_imp fun hi => ?_
    exact lt_of_lt_of_le ((h.retired i).1 hi).1 h.used.2
  have hone : ((Finset.range N).filter fun i => (b.holder i).isSome).card +
      ((Finset.range N).filter fun i => ¬ (b.holder i).isSome).card = N := by
    rw [Finset.card_filter_add_card_filter_not, Finset.card_range]
  have htwo : (((Finset.range N).filter fun i => ¬ (b.holder i).isSome).filter fun i => i ∈ b.retired).card +
      (((Finset.range N).filter fun i => ¬ (b.holder i).isSome).filter fun i => i ∉ b.retired).card =
        ((Finset.range N).filter fun i => ¬ (b.holder i).isSome).card := Finset.card_filter_add_card_filter_not _
  have hfirst : (((Finset.range N).filter fun i => ¬ (b.holder i).isSome).filter fun i => i ∈ b.retired) =
      (Finset.range N).filter fun i => i ∈ b.retired := by
    rw [Finset.filter_filter]
    refine Finset.filter_congr fun i _ => and_iff_right_of_imp fun hi => ?_
    rw [((h.retired i).1 hi).2.1]
    simp
  have hsecond : (((Finset.range N).filter fun i => ¬ (b.holder i).isSome).filter fun i => i ∉ b.retired) =
      (Finset.range N).filter fun i => b.holder i = none ∧ i ∉ b.retired := by
    rw [Finset.filter_filter]
    simp
  rw [hfirst, hsecond, hretired] at htwo
  rw [available, h.taken, h.gone, held]
  omega

/-! ## Runs -/

/-- **Step lemma**: a call that meets its contract fails no assertion, answers right and keeps the book. -/
theorem exec_spec (hN : N ≤ 2 ^ 16) (h : Inv N t b) (hm : op.Meets N t b) :
    ∃ t' e, exec N t op = some (t', e) ∧ e.Right N b ∧ Inv N t' (b.see e) := by
  cases op with
  | alloc x =>
    rcases alloc_spec hN h x with ⟨hused, hback, he⟩ | ⟨i, t', he, hr, h'⟩
    · exact ⟨t, .refused, by simp only [exec, he], ⟨hused, hback⟩, h⟩
    · exact ⟨t', .allocated i x, by simp only [exec, he], hr, h'⟩
  | free i =>
    obtain ⟨t', he, h'⟩ := free_spec h hm
    exact ⟨t', .freed i, by simp only [exec, he, Option.map_some], hm, h'⟩
  | checkCount i =>
    refine ⟨t, .checked i (decide (b.count i ≠ MAX_COUNT)), ?_, rfl, h⟩
    simp only [exec, h.checkCount hm]
    by_cases hmax : b.count i = MAX_COUNT
    · simp [hmax, Except.isOk, Except.toBool]
    · simp [hmax, Except.isOk, Except.toBool]
  | accept i =>
    obtain ⟨t', he, hlt, hmax, h'⟩ := accept_spec hN h hm
    exact ⟨t', .accepted i _, by simp only [exec, he, Option.map_some], ⟨hlt, hmax, rfl⟩, h'⟩
  | markDead i =>
    obtain ⟨t', he, h'⟩ := markDead_spec h hm
    exact ⟨t', .marked i, by simp only [exec, he, Option.map_some], hm, h'⟩

/-- The token that a call gave out. -/
def Event.token? : Event T → Option Nat
  | .accepted _ token => some token
  | _ => none

/-- The tokens given out in a trace. -/
def tokens (tr : List (Event T)) : List Nat := tr.filterMap Event.token?

/-- The token of the last request that was accepted on a number. -/
def lastToken (tr : List (Event T)) (i : Nat) : Option Nat :=
  ((tokens tr).filter fun token => token % 2 ^ 16 = i).getLast?

theorem tokens_append (tr : List (Event T)) (e : Event T) : tokens (tr ++ [e]) = tokens tr ++ e.token?.toList := by
  rw [tokens, filterMap_append]
  cases he : e.token? with
  | none => rw [filterMap_cons_none he]; rfl
  | some token => rw [filterMap_cons_some he]; rfl

/-- The tokens of a trace: none comes twice, none is above the count of its number, and the last one has it. -/
structure Issued (tr : List (Event T)) (b : Book T) : Prop where
  nodup : (tokens tr).Nodup
  known : ∀ token ∈ tokens tr, token / 2 ^ 16 ≠ 0 ∧ token / 2 ^ 16 ≤ b.count (token % 2 ^ 16)
  last : ∀ i < 2 ^ 16, lastToken tr i = if b.count i = 0 then none else some (2 ^ 16 * b.count i + i)

theorem issued_nil : Issued (T := T) [] new :=
  ⟨nodup_nil, fun _ h => absurd h not_mem_nil, fun _ _ => rfl⟩

theorem Issued.quiet (h : Issued tr b) (htoken : e.token? = none)
    (hcount : (b.see e).count = b.count) : Issued (tr ++ [e]) (b.see e) := by
  have hsame : tokens (tr ++ [e]) = tokens tr := by
    rw [tokens_append, htoken]
    exact append_nil _
  refine ⟨?_, ?_, fun i hi => ?_⟩
  · rw [hsame]
    exact h.nodup
  · rw [hsame, hcount]
    exact h.known
  · rw [lastToken, hsame, hcount]
    exact h.last i hi

theorem Issued.accepted (h : Issued tr b) (hi : i < 2 ^ 16) :
    Issued (tr ++ [.accepted i (2 ^ 16 * (b.count i + 1) + i)])
      (b.see (.accepted i (2 ^ 16 * (b.count i + 1) + i))) := by
  obtain ⟨token, htoken⟩ : ∃ token, token = 2 ^ 16 * (b.count i + 1) + i := ⟨_, rfl⟩
  have hmod : token % 2 ^ 16 = i := by omega
  have hdiv : token / 2 ^ 16 = b.count i + 1 := by omega
  have hall : tokens (tr ++ [.accepted i token]) = tokens tr ++ [token] := tokens_append tr _
  have hcount : ∀ j, (b.see (.accepted i token)).count j = b.count j + if j = i then 1 else 0 := by
    intro j
    by_cases hj : j = i
    · subst hj
      simp [see]
    · simp [see, hj]
  rw [← htoken]
  refine ⟨?_, fun tok htok => ?_, fun j hj => ?_⟩
  · -- an earlier token of this number has a lower count
    rw [hall]
    refine nodup_append.2 ⟨h.nodup, nodup_singleton _, fun a ha c hc hac => ?_⟩
    rw [mem_singleton] at hc
    subst hc
    subst hac
    have := (h.known a ha).2
    rw [hmod] at this
    omega
  · rw [hall, mem_append, mem_singleton] at htok
    rw [hcount]
    rcases htok with htok | rfl
    · obtain ⟨h1, h2⟩ := h.known tok htok
      exact ⟨h1, by omega⟩
    · rw [hmod, hdiv, if_pos rfl]
      exact ⟨by omega, le_rfl⟩
  · rw [lastToken, hall, filter_append, hcount]
    by_cases hji : j = i
    · subst hji
      have hone : [token].filter (fun token => token % 2 ^ 16 = j) = [token] :=
        filter_eq_self.2 fun a ha => by rw [mem_singleton.1 ha]; exact decide_eq_true hmod
      rw [hone, getLast?_concat, if_pos rfl, if_neg (Nat.succ_ne_zero _), ← htoken]
    · have hnone : [token].filter (fun token => token % 2 ^ 16 = j) = [] :=
        filter_eq_nil_iff.2 fun a ha => by
          rw [mem_singleton.1 ha, hmod, decide_eq_true_eq]
          exact Ne.symm hji
      rw [hnone, append_nil, if_neg hji]
      exact h.last j hj

theorem Issued.append (hN : N ≤ 2 ^ 16) (h : Issued tr b) (hr : e.Right N b) :
    Issued (tr ++ [e]) (b.see e) := by
  cases e with
  | accepted j token =>
    obtain ⟨hlt, -, rfl⟩ := hr
    exact h.accepted (by omega)
  | freed j =>
    refine h.quiet rfl ?_
    simp only [see]
    split <;> rfl
  | allocated _ _ | refused | checked _ _ | marked _ => exact h.quiet rfl rfl

/-- What holds of a table and the trace that led to it. -/
structure Traced (N : Nat) (t : Table T) (tr : List (Event T)) : Prop where
  inv : Inv N t (new.after tr)
  right : ∀ pre e post, tr = pre ++ e :: post → e.Right N (new.after pre)
  issued : Issued tr (new.after tr)
  never : ∀ pre e post, tr = pre ++ e :: post → ∀ i x, e = .allocated i x →
    ∀ token ∈ tokens pre, token % 2 ^ 16 = i → token / 2 ^ 16 ≠ MAX_COUNT

/-- A number that `alloc` gives has a count left. -/
theorem count_ne_max {x : T} (h : Inv N t b) (hr : Event.Right N b (.allocated i x)) : b.count i ≠ MAX_COUNT := by
  rcases hr with ⟨rfl, -⟩ | ⟨-, hhead⟩
  · rw [(h.fresh b.used (Nat.le_refl _)).2]
    decide
  · exact ((h.back i).1 (mem_of_head? hhead)).2.2

theorem traced_new (N : Nat) : Traced N (new : Table T) [] := by
  have hheld : Book.held N (Book.new : Book T) = 0 := by simp [Book.held, Book.new]
  refine ⟨⟨fun i _ => rfl, nofun, fun _ => Nat.zero_le _, ⟨rfl, Nat.zero_le _⟩, fun _ _ => ⟨rfl, rfl⟩, rfl, rfl, nofun,
    fun i => ?_, fun i => ?_, ⟨nodup_nil, nodup_nil⟩, hheld.symm, rfl⟩, fun pre e post h => ?_, issued_nil,
    fun pre e post h => ?_⟩
  · exact iff_of_false not_mem_nil fun h => absurd h.1 (Nat.not_lt_zero i)
  · exact iff_of_false not_mem_nil fun h => absurd h.1 (Nat.not_lt_zero i)
  · simp at h
  · simp at h

theorem Traced.exec (hN : N ≤ 2 ^ 16) (h : Traced N t tr)
    (hm : op.Meets N t (new.after tr)) :
    ∃ t' e, exec N t op = some (t', e) ∧ Traced N t' (tr ++ [e]) := by
  obtain ⟨t', e, he, hr, h'⟩ := exec_spec hN h.inv hm
  refine ⟨t', e, he, ?_, Run.places_append h.right hr, ?_, Run.places_append h.never ?_⟩
  · rwa [after_append]
  · rw [after_append]
    exact h.issued.append hN hr
  · rintro i x rfl token htoken hmod hmax
    have hle := (h.issued.known token htoken).2
    have hcount := count_ne_max h.inv hr
    have := h.inv.count i
    rw [hmod] at hle
    omega

theorem Traced.run (hN : N ≤ 2 ^ 16) (h : Traced N t tr)
    (hm : Met N t tr ops) : ∃ t' tr', run N t tr ops = some (t', tr') ∧ Traced N t' tr' := by
  induction ops generalizing t tr with
  | nil => exact ⟨t, tr, rfl, h⟩
  | cons op ops ih =>
    obtain ⟨t₁, e, he, h₁⟩ := h.exec hN hm.1
    obtain ⟨t', tr', hr, h'⟩ := ih h₁ (hm.2 _ he)
    refine ⟨t', tr', ?_, h'⟩
    rw [Token.run, he]
    exact hr

/-- A token is the last of its number exactly when it carries the count of the number. -/
theorem Traced.last_iff (h : Traced N t tr) (token : Nat) :
    lastToken tr (token % 2 ^ 16) = some token ↔
      token % 2 ^ 16 < N ∧ token / 2 ^ 16 ≠ 0 ∧ (new.after tr).count (token % 2 ^ 16) = token / 2 ^ 16 := by
  rw [h.issued.last _ (Nat.mod_lt _ (by decide))]
  obtain ⟨c, hc⟩ : ∃ c, c = (new.after tr).count (token % 2 ^ 16) := ⟨_, rfl⟩
  have hfresh : c ≠ 0 → token % 2 ^ 16 < N := by
    intro hne
    by_contra hge
    have := (h.inv.fresh (token % 2 ^ 16) (by have := h.inv.used.2; omega)).2
    omega
  rw [← hc]
  by_cases h0 : c = 0
  · rw [if_pos h0]
    refine iff_of_false nofun ?_
    rintro ⟨-, hne, heq⟩
    omega
  · rw [if_neg h0, Option.some.injEq]
    refine ⟨fun he => ⟨hfresh h0, ?_, ?_⟩, ?_⟩
    · omega
    · omega
    · rintro ⟨-, -, heq⟩
      omega

/-- **Reply tokens.** On a table of at most 2^16 numbers, through any calls within their contracts: no assertion
fails; no token is given out twice, and none is 0; `check` finds the thread on the number for the last token of
the number while the number is taken and the mark is not set, PEER_CLOSED for the last token while it is set, and
BAD_STATE otherwise; a number on which a token with the last count was given out is not allocated again;
`available` counts the numbers neither taken nor retired, those with the last count that are free; and `alloc`
gives the lowest number never handed out, or else the first of those given back, and is refused only when there is
neither. -/
theorem tokens_safe (hN : N ≤ 2 ^ 16) {ops : List (Op T)} (hm : Met N new [] ops) :
    ∃ t tr, run N new [] ops = some (t, tr) ∧
      (tokens tr).Nodup ∧ 0 ∉ tokens tr ∧
      (∀ token, ∃ r, t.check N token = some r ∧
        let b := new.after tr
        let i := token % 2 ^ 16
        (∀ x, r = .ok x ↔ b.holder i = some x ∧ lastToken tr i = some token ∧ b.dead i = false) ∧
        (r = .error .peerClosed ↔ lastToken tr i = some token ∧ b.dead i = true) ∧
        ((∃ x, r = .ok x) ∨ r = .error .peerClosed ∨ r = .error .badState)) ∧
      (∀ pre i x post, tr = pre ++ .allocated i x :: post →
        ∀ token ∈ tokens pre, token % 2 ^ 16 = i → token / 2 ^ 16 ≠ MAX_COUNT) ∧
      t.available N = ((Finset.range N).filter fun i =>
        (new.after tr).holder i = none ∧ i ∉ (new.after tr).retired).card ∧
      (∀ i, i ∈ (new.after tr).retired ↔ i < N ∧ (new.after tr).holder i = none ∧
        lastToken tr i = some (2 ^ 16 * MAX_COUNT + i)) ∧
      (∀ pre i x post, tr = pre ++ .allocated i x :: post →
        i = (new.after pre).used ∧ i < N ∨
          (new.after pre).used = N ∧ (new.after pre).back.head? = some i) ∧
      ∀ pre post, tr = pre ++ .refused :: post → (new.after pre).used = N ∧ (new.after pre).back = [] := by
  obtain ⟨t, tr, hr, h⟩ := (traced_new N).run hN hm
  refine ⟨t, tr, hr, h.issued.nodup, fun h0 => (h.issued.known 0 h0).1 rfl, fun token => ?_,
    fun pre i x post hs => h.never pre _ post hs i x rfl, available_spec h.inv, fun i => ?_, fun pre i x post hs => ?_,
    fun pre => h.right pre .refused⟩
  · refine ⟨_, check_spec h.inv token, ?_⟩
    simp only [h.last_iff token]
    split
    · next hgood =>
      simp only [hgood, ne_eq, true_and]
      cases hdead : (new.after tr).dead (token % 2 ^ 16) with
      | true => simp
      | false =>
        cases hh : (new.after tr).holder (token % 2 ^ 16) with
        | none => simp
        | some x => simp [eq_comm]
    · next hbad =>
      exact ⟨fun x => iff_of_false nofun fun hx => hbad hx.2.1, iff_of_false nofun fun hx => hbad hx.1, .inr (.inr rfl)⟩
  · rw [h.inv.retired]
    have hused := h.inv.used.2
    refine ⟨fun ⟨hlt, hnone, hmax⟩ => ⟨by omega, hnone, ?_⟩, fun ⟨hlt, hnone, hlast⟩ => ?_⟩
    · rw [h.issued.last i (by omega), hmax]
      rfl
    · rw [h.issued.last i (by omega)] at hlast
      have hmax : (new.after tr).count i = MAX_COUNT := by
        split at hlast
        · cases hlast
        · rw [Option.some.injEq] at hlast
          omega
      refine ⟨?_, hnone, hmax⟩
      by_contra hge
      rw [(h.inv.fresh i (by omega)).2] at hmax
      cases hmax
  · rcases h.right pre _ post hs with ⟨rfl, hlt⟩ | hback
    · exact .inl ⟨rfl, hlt⟩
    · exact .inr hback

theorem met_cons {r : Table T × Event T}
    (hm : op.Meets N t (new.after tr)) (he : exec N t op = some r) (hr : Met N r.1 (tr ++ [r.2]) ops) :
    Met N t tr (op :: ops) := by
  refine ⟨hm, fun r' hr' => ?_⟩
  obtain rfl := Option.some.inj (he.symm.trans hr')
  exact hr

/-- A request of the thread on number 0 is accepted and then abandoned; the number goes and comes back. -/
theorem tokens_safe_abandoned :
    let ops : List (Op Char) := [.alloc 'a', .checkCount 0, .accept 0, .markDead 0, .free 0]
    Met 1 new [] ops ∧ ∃ t, run 1 new [] ops =
        some (t, [.allocated 0 'a', .checked 0 true, .accepted 0 0x10000, .marked 0, .freed 0]) ∧
      t.check 1 0x10000 = some (.error .peerClosed) := by
  intro ops
  have hm : Met 1 new [] ops := by
    refine met_cons trivial rfl ?_
    refine met_cons rfl rfl ?_
    refine met_cons rfl rfl ?_
    refine met_cons rfl rfl ?_
    exact ⟨rfl, fun _ _ => trivial⟩
  have hrun : (run 1 new [] ops).map (·.2) =
      some [.allocated 0 'a', .checked 0 true, .accepted 0 0x10000, .marked 0, .freed 0] := by
    decide +kernel
  obtain ⟨t, tr, hr, -, -, hcheck, -⟩ := tokens_safe (by decide) hm
  rw [hr, Option.map_some, Option.some.injEq] at hrun
  subst hrun
  obtain ⟨r, hc, -, hclosed, -⟩ := hcheck 0x10000
  refine ⟨hm, t, hr, ?_⟩
  rw [hc, hclosed.2 ⟨rfl, rfl⟩]

end Token
