import Mathlib.Tactic

/-!
# The ring of the kernel log (kcore/src/log.rs)

Records have numbers in the order they were written, and record `n` lies in place `n % N` until record `n + N`
writes over it. `take` moves one cursor over them and gives the records nobody showed; `show` marks text records
shown; a record of text that is written over before either counts as lost. `peek` reads with a cursor that the
caller keeps and changes nothing.

`World` is a ring with what was seen of it: the records pushed, the numbers that takes gave and that shows
marked, the counts returned. `Inv` says how the ring and that history fit together; each operation keeps it,
as long as the 64 bits of `head` number the records (`inv_run`). One push more and the cursor starts over at
zero below a full ring, which then looks empty.
-/

namespace LogRing

open Function List

/-- The bytes of text in a record (abi lib.rs). -/
def LOG_TEXT : Nat := 64

/-- The records of one read. -/
def LOG_BATCH : Nat := 12

/-- `Record` (log.rs:21): the length is that of the text, and the zeros are left out. -/
structure Record where
  time : UInt64
  kind : UInt8
  text : List UInt8
  shown : Bool
  deriving DecidableEq, Repr

/-- `Record::EMPTY`. -/
def Record.empty : Record := ⟨0, 0, [], false⟩

/-- `LOG_TEXT_KIND | LOG_KERNEL_KIND`. -/
def Record.isText (r : Record) : Bool := r.kind == 1 || r.kind == 2

/-- `LogBatch`. -/
structure LogBatch where
  count : Nat
  lost : Nat
  left : Nat
  deriving DecidableEq, Repr

/-- `Ring` (log.rs:78), without the number of the seqlock. -/
structure Ring (N : Nat) where
  records : Nat → Record
  head : Nat
  taken : Nat
  lost : Nat

namespace Ring

variable {N : Nat}

/-- `new` (log.rs:96). -/
def new (N : Nat) : Ring N := ⟨fun _ => .empty, 0, 0, 0⟩

/-- `at` (log.rs:106). -/
def at_ (r : Ring N) (n : Nat) : Record := r.records (n % N)

/-- `first` (log.rs:112). -/
def first (r : Ring N) : Nat := max r.taken (r.head - N)

/-- `push` (log.rs:120). The counters have 64 bits, and the release build lets them wrap. -/
def push (r : Ring N) (time : UInt64) (kind : UInt8) (text : List UInt8) (shown : Bool) : Ring N where
  records := update r.records (r.head % N) ⟨time, kind, text.take LOG_TEXT, shown⟩
  head := (r.head + 1) % 2 ^ 64
  taken := r.taken
  lost :=
    if N ≤ r.head ∧ r.taken ≤ r.head - N ∧ (r.at_ r.head).shown = false ∧ (r.at_ r.head).isText then
      (r.lost + 1) % 2 ^ 64
    else r.lost

/-- The loop of `take` (log.rs:228), with the count of numbers before `head` for fuel: the numbers of the
records given, and where it stops. -/
def takeLoop (r : Ring N) : Nat → Nat → Nat → List Nat × Nat
  | 0, n, _ => ([], n)
  | fuel + 1, n, count =>
    if count < LOG_BATCH then
      if (r.at_ n).shown then r.takeLoop fuel (n + 1) count
      else (n :: (r.takeLoop fuel (n + 1) (count + 1)).1, (r.takeLoop fuel (n + 1) (count + 1)).2)
    else ([], n)

/-- The numbers from `n` to `head` of records nobody showed. -/
def unshownFrom (r : Ring N) (n : Nat) : List Nat :=
  (range' n (r.head - n)).filter fun m => !(r.at_ m).shown

/-- `take` (log.rs:226): the records given with their numbers, the counts and the ring after it. -/
def take (r : Ring N) : List (Nat × Record) × LogBatch × Ring N :=
  let out := r.takeLoop (r.head - r.first) r.first 0
  (out.1.map fun n => (n, r.at_ n), ⟨out.1.length, r.lost, (r.unshownFrom out.2).length⟩,
    { r with taken := out.2, lost := 0 })

/-- `peek` (log.rs:249). -/
def peek (r : Ring N) (first : Nat) : List Record × LogBatch × Nat :=
  let oldest := r.head - N
  let next := min (max first oldest) r.head
  let count := min (r.head - next) LOG_BATCH
  ((range' next count).map r.at_, ⟨count, oldest - first, r.head - (next + count)⟩, next + count)

/-- One turn of the loop of `show` (log.rs:275). -/
def showOne (acc : Ring N × List Nat) (n : Nat) : Ring N × List Nat :=
  if (acc.1.at_ n).isText = true ∧ (acc.1.at_ n).shown = false then
    ({ acc.1 with records := update acc.1.records (n % N) { acc.1.at_ n with shown := true } }, acc.2 ++ [n])
  else acc

/-- `show` (log.rs:272): the ring after it and the numbers of the records given. -/
def show_ (r : Ring N) : Ring N × List Nat := (range' r.first (r.head - r.first)).foldl showOne (r, [])

/-! ## The loop of a take -/

/-- It gives the unshown records up to where it stops. -/
theorem takeLoop_spec (r : Ring N) :
    ∀ fuel n count, n ≤ (r.takeLoop fuel n count).2 ∧ (r.takeLoop fuel n count).2 ≤ n + fuel ∧
      (r.takeLoop fuel n count).1 =
        (range' n ((r.takeLoop fuel n count).2 - n)).filter fun m => !(r.at_ m).shown
  | 0, n, count => by simp [takeLoop]
  | fuel + 1, n, count => by
    have hstep : ∀ m, n + 1 ≤ m → range' n (m - n) = n :: range' (n + 1) (m - (n + 1)) := by
      intro m hm
      rw [show m - n = (m - (n + 1)) + 1 by omega, range'_succ]
    unfold takeLoop
    split_ifs with hc hs
    · obtain ⟨h1, h2, h3⟩ := takeLoop_spec r fuel (n + 1) count
      refine ⟨by omega, by omega, ?_⟩
      rw [hstep _ h1, filter_cons_of_neg (by simp [hs])]
      exact h3
    · obtain ⟨h1, h2, h3⟩ := takeLoop_spec r fuel (n + 1) (count + 1)
      refine ⟨by dsimp only; omega, by dsimp only; omega, ?_⟩
      rw [hstep _ h1, filter_cons_of_pos (by simp [hs])]
      rw [← h3]
    · simp

end Ring

/-! ## What was seen of a ring -/

/-- A ring with its history: the records pushed; the records and the numbers that takes gave; the numbers that
shows marked; the sum of the counts `lost` returned; the numbers that the last take left, and how many records
were pushed before it; and a reader with `peek`: where it started, what it was told, and where it is. -/
structure World (N : Nat) where
  ring : Ring N
  pushed : List Record
  out : List Record
  takenNums : List Nat
  shownNums : List Nat
  lostSum : Nat
  lastLeft : Nat
  leftNums : List Nat
  mark : Nat
  base : Nat
  moved : Nat
  reader : Nat

namespace World

variable {N n : Nat} {w : World N} {x : Record}

def new (N : Nat) : World N := ⟨.new N, [], [], [], [], 0, 0, [], 0, 0, 0, 0⟩

/-- A text that no read will give: written over before it was taken or shown. -/
def gone (w : World N) : List Nat :=
  (range (w.pushed.length - N)).filter fun n =>
    (w.pushed[n]?.any fun x => x.isText && !x.shown) && !w.takenNums.contains n && !w.shownNums.contains n

/-- A record in the ring that no read passed and nobody showed. -/
def Unread (w : World N) (n : Nat) : Prop := w.ring.first ≤ n ∧ n < w.ring.head ∧ (w.ring.at_ n).shown = false

/-- What the callers do. A reader starts anywhere, and goes on with the number it was given. -/
inductive Op where
  | push (time : UInt64) (kind : UInt8) (text : List UInt8) (shown : Bool)
  | take
  | show_
  | start (first : Nat)
  | peek

def step (w : World N) : Op → World N
  | .push time kind text shown =>
    { w with ring := w.ring.push time kind text shown, pushed := w.pushed ++ [⟨time, kind, text.take LOG_TEXT, shown⟩] }
  | .take =>
    let (given, batch, ring) := w.ring.take
    { w with
      ring := ring, out := w.out ++ given.map Prod.snd, takenNums := w.takenNums ++ given.map Prod.fst,
      lostSum := w.lostSum + batch.lost, lastLeft := batch.left, leftNums := ring.unshownFrom ring.taken,
      mark := w.pushed.length }
  | .show_ => { w with ring := w.ring.show_.1, shownNums := w.shownNums ++ w.ring.show_.2 }
  | .start first => { w with reader := (w.ring.peek first).2.2, base := (w.ring.peek first).2.2, moved := 0 }
  | .peek =>
    let batch := (w.ring.peek w.reader).2.1
    { w with reader := (w.ring.peek w.reader).2.2, moved := w.moved + batch.count + batch.lost }

def run (N : Nat) (ops : List Op) : World N := ops.foldl step (new N)

/-- How the ring and the history fit together. -/
structure Inv (w : World N) : Prop where
  head_eq : w.ring.head = w.pushed.length
  taken_le : w.ring.taken ≤ w.pushed.length
  at_eq : ∀ n x, w.pushed[n]? = some x → w.pushed.length ≤ n + N →
    w.ring.at_ n = { x with shown := x.shown || w.shownNums.contains n }
  sorted : w.takenNums.Pairwise (· < ·)
  taken_lt : ∀ n ∈ w.takenNums, n < w.ring.taken
  given : w.out.map some = w.takenNums.map fun n => w.pushed[n]?
  unshown : ∀ n ∈ w.takenNums, n ∉ w.shownNums ∧ ∀ x, w.pushed[n]? = some x → x.shown = false
  shown_lt : ∀ n ∈ w.shownNums, n < w.pushed.length
  passed : ∀ n x, w.pushed[n]? = some x → x.shown = false → n < w.ring.taken →
    n ∈ w.takenNums ∨ n ∈ w.shownNums ∨ n + N < w.pushed.length
  lost_eq : w.lostSum + w.ring.lost = w.gone.length
  left : ∀ n, w.Unread n → n ∈ w.leftNums ∨ w.mark ≤ n
  left_eq : w.lastLeft = w.leftNums.length
  mark_le : w.mark ≤ w.pushed.length
  reader_le : w.reader ≤ w.pushed.length
  reader_eq : w.reader = w.base + w.moved

theorem inv_new : Inv (new N) := by
  refine ⟨rfl, le_rfl, by simp [new], List.Pairwise.nil, by simp [new], rfl, by simp [new], by simp [new],
    by simp [new], by simp [new, gone, Ring.new], ?_, rfl, le_rfl, le_rfl, rfl⟩
  rintro n ⟨-, hn, -⟩
  simp [new, Ring.new] at hn

/-- A record of text is lost when nobody took or showed it. -/
theorem gone_mem (hx : w.pushed[n]? = some x) (ht : x.isText = true)
    (hs : x.shown = false) :
    n ∈ w.gone ↔ n + N < w.pushed.length ∧ n ∉ w.takenNums ∧ n ∉ w.shownNums := by
  have : n < w.pushed.length - N ↔ n + N < w.pushed.length := by omega
  simp [gone, hx, ht, hs, this]

theorem gone_length_le (w : World N) : w.gone.length ≤ w.pushed.length := by
  refine (length_filter_le ..).trans ?_
  rw [length_range]
  exact Nat.sub_le ..

/-! ## Push -/

/-- The record that a push writes over, if it was text that nobody showed or took. -/
theorem gone_push (hN : 0 < N) (h : Inv w) (time : UInt64) (kind : UInt8) (text : List UInt8)
    (shown : Bool) :
    (w.step (.push time kind text shown)).gone.length = w.gone.length +
      if N ≤ w.ring.head ∧ w.ring.taken ≤ w.ring.head - N ∧ (w.ring.at_ w.ring.head).shown = false ∧
        (w.ring.at_ w.ring.head).isText then 1 else 0 := by
  have hsame : ∀ n < w.pushed.length,
      (w.pushed ++ [(⟨time, kind, text.take LOG_TEXT, shown⟩ : Record)])[n]? = w.pushed[n]? :=
    fun n hn => getElem?_append_left hn
  unfold gone step
  simp only [length_append, length_singleton]
  by_cases hfull : N ≤ w.pushed.length
  · -- the ring is full: the oldest record goes
    have hlt : w.pushed.length - N < w.pushed.length := by omega
    obtain ⟨x, hx⟩ : ∃ x, w.pushed[w.pushed.length - N]? = some x := ⟨_, getElem?_eq_getElem hlt⟩
    have hat := h.at_eq _ x hx (by omega)
    have hplace : w.ring.at_ w.ring.head = w.ring.at_ (w.pushed.length - N) := by
      unfold Ring.at_
      rw [h.head_eq]
      conv_lhs => rw [show w.pushed.length = (w.pushed.length - N) + N by omega, Nat.add_mod_right]
    rw [hplace, hat, h.head_eq, show w.pushed.length + 1 - N = (w.pushed.length - N) + 1 by omega, range_succ,
      filter_append, length_append]
    congr 1
    · congr 1
      refine filter_congr fun n hn => ?_
      rw [mem_range] at hn
      rw [hsame n (by omega)]
    · have hpassed := h.passed _ x hx
      have htaken := h.taken_lt (w.pushed.length - N)
      have hisText : (({ x with shown := x.shown || w.shownNums.contains (w.pushed.length - N) } : Record)).isText =
          x.isText := rfl
      rw [hisText]
      simp only [filter_cons, filter_nil, (hsame _ hlt).trans hx]
      by_cases hmem : w.pushed.length - N ∈ w.takenNums
      · have := htaken hmem
        simp [hmem, Nat.not_le.2 this]
      · by_cases hs : x.shown = true ∨ w.pushed.length - N ∈ w.shownNums ∨ x.isText = false
        · rcases hs with hs | hs | hs <;> simp [hs]
        · simp only [not_or, Bool.not_eq_true] at hs
          have hle : w.ring.taken ≤ w.pushed.length - N := by
            by_contra hlt'
            rcases hpassed hs.1 (by omega) with hp | hp | hp
            · exact hmem hp
            · exact hs.2.1 hp
            · omega
          simp [hs, hfull, hle, hmem]
  · rw [if_neg (by rw [h.head_eq]; omega), show w.pushed.length + 1 - N = 0 by omega,
      show w.pushed.length - N = 0 by omega]
    rfl

/-- Records less than a ring apart lie in two places. -/
theorem place_ne {m : Nat} (hlt : m < n) (hn : n < m + N) : m % N ≠ n % N := by
  intro heq
  have := Nat.le_of_dvd (by omega) (Nat.dvd_of_mod_eq_zero (Nat.sub_mod_eq_zero_of_mod_eq heq.symm))
  omega

theorem at_push (h : Inv w) (time : UInt64) (kind : UInt8) (text : List UInt8) (shown : Bool)
    (hx : (w.step (.push time kind text shown)).pushed[n]? = some x)
    (hn : w.pushed.length + 1 ≤ n + N) :
    (w.ring.push time kind text shown).at_ n = { x with shown := x.shown || w.shownNums.contains n } := by
  simp only [step] at hx
  have hlt := (List.getElem?_eq_some_iff.1 hx).1
  simp only [List.length_append] at hlt
  unfold Ring.at_ Ring.push
  simp only [h.head_eq]
  rcases Nat.lt_succ_iff_lt_or_eq.1 hlt with hlt | rfl
  · -- another place than the one written
    rw [update_of_ne (place_ne hlt (by omega))]
    rw [List.getElem?_append_left hlt] at hx
    exact h.at_eq n x hx (by omega)
  · simp only [List.getElem?_concat_length, Option.some.injEq] at hx
    have hnot : w.pushed.length ∉ w.shownNums := fun hmem => lt_irrefl _ (h.shown_lt _ hmem)
    subst hx
    simp [hnot]

theorem inv_push (hN : 0 < N) (h : Inv w) (time : UInt64) (kind : UInt8) (text : List UInt8)
    (shown : Bool) (hfew : w.pushed.length + 1 < 2 ^ 64) : Inv (w.step (.push time kind text shown)) := by
  have hlen : (w.step (.push time kind text shown)).pushed.length = w.pushed.length + 1 := by simp [step]
  have hhead : (w.step (.push time kind text shown)).ring.head = w.pushed.length + 1 := by
    simp only [step, Ring.push, h.head_eq]
    exact Nat.mod_eq_of_lt hfew
  have hold : ∀ n < w.pushed.length, (w.step (.push time kind text shown)).pushed[n]? = w.pushed[n]? :=
    fun n hn => getElem?_append_left hn
  have hlt : ∀ n ∈ w.takenNums, n < w.pushed.length := fun n hn => lt_of_lt_of_le (h.taken_lt n hn) h.taken_le
  have hpush := gone_push hN h time kind text shown
  have hgone := gone_length_le w
  have hlost := h.lost_eq
  have hshown : ∀ n ∈ w.shownNums, n < w.pushed.length + 1 := fun n hn => Nat.lt_succ_of_lt (h.shown_lt n hn)
  refine ⟨hhead.trans hlen.symm, ?_, ?_, h.sorted, h.taken_lt, ?_, ?_, ?_, ?_, ?_, ?_, h.left_eq, ?_, ?_, h.reader_eq⟩
  · exact hlen ▸ Nat.le_succ_of_le h.taken_le
  · intro n x hx hn
    exact at_push h time kind text shown hx (hlen ▸ hn)
  · refine h.given.trans (map_congr_left fun n hn => (hold n (hlt n hn)).symm)
  · intro n hn
    refine ⟨(h.unshown n hn).1, fun x hx => (h.unshown n hn).2 x ?_⟩
    rw [← hold n (hlt n hn)]
    exact hx
  · exact fun n hn => hlen ▸ hshown n hn
  · intro n x hx hs htaken
    have hn : n < w.pushed.length := lt_of_lt_of_le htaken h.taken_le
    rw [hold n hn] at hx
    exact (h.passed n x hx hs htaken).imp_right fun hor => hor.imp_right fun hor => by omega
  · rw [hpush]
    simp only [step, Ring.push]
    split_ifs with hc
    · have : w.ring.lost + 1 < 2 ^ 64 := by omega
      rw [Nat.mod_eq_of_lt this]
      omega
    · omega
  · rintro n ⟨hfirst, hn, hs⟩
    rw [hhead] at hn
    unfold Ring.first at hfirst
    rw [hhead] at hfirst
    change max w.ring.taken _ ≤ n at hfirst
    rcases Nat.lt_succ_iff_lt_or_eq.1 hn with hn | rfl
    · -- it was unread before
      have hx := getElem?_eq_getElem hn
      refine h.left n ⟨?_, h.head_eq ▸ hn, ?_⟩
      · unfold Ring.first
        rw [h.head_eq]
        omega
      · have hat := at_push h time kind text shown ((hold n hn).trans hx) (by omega)
        rw [h.at_eq n _ hx (by omega), ← hat]
        exact hs
    · exact .inr h.mark_le
  · exact hlen ▸ Nat.le_succ_of_le h.mark_le
  · exact hlen ▸ Nat.le_succ_of_le h.reader_le

/-! ## Take -/

theorem inv_take (h : Inv w) : Inv (w.step .take) := by
  obtain ⟨hn, hm, hgiven⟩ := w.ring.takeLoop_spec (w.ring.head - w.ring.first) w.ring.first 0
  simp only [step, Ring.take]
  generalize hout : w.ring.takeLoop (w.ring.head - w.ring.first) w.ring.first 0 = out at *
  have hfirst : w.ring.taken ≤ w.ring.first ∧ w.ring.head - N ≤ w.ring.first := by
    unfold Ring.first
    omega
  have hhead := h.head_eq
  have hle := h.taken_le
  have hbound : out.2 ≤ w.ring.head := by
    unfold Ring.first at hm
    omega
  -- a number given lies between the two cursors, and its record is as it was pushed
  have hmem : ∀ n, n ∈ out.1 ↔ (w.ring.first ≤ n ∧ n < out.2) ∧ (w.ring.at_ n).shown = false := by
    intro n
    rw [hgiven, mem_filter, mem_range'_1, Bool.not_eq_true']
    exact and_congr_left fun _ => by omega
  have hrecord : ∀ n ∈ out.1, ∃ x, w.pushed[n]? = some x ∧ w.ring.at_ n = x ∧ x.shown = false ∧ n ∉ w.shownNums := by
    intro n hn
    obtain ⟨hbetween, hs⟩ := (hmem n).1 hn
    have hx := getElem?_eq_getElem (show n < w.pushed.length by omega)
    have hat := h.at_eq n _ hx (by omega)
    rw [hat, Bool.or_eq_false_iff] at hs
    refine ⟨_, hx, ?_, hs.1, by simpa using hs.2⟩
    rw [hat, hs.1, hs.2]
    generalize w.pushed[n] = x at hs
    cases x
    exact congrArg _ hs.1.symm
  have hmapfst : (out.1.map fun n => (n, w.ring.at_ n)).map Prod.fst = out.1 := by
    rw [map_map]
    exact map_id _
  refine ⟨hhead, by dsimp only; omega, h.at_eq, ?_, ?_, ?_, ?_, h.shown_lt, ?_, ?_, ?_, ?_, le_rfl, h.reader_le,
    h.reader_eq⟩
  · rw [hmapfst, pairwise_append]
    refine ⟨h.sorted, ?_, fun a ha b hb => ?_⟩
    · rw [hgiven]
      exact (pairwise_lt_range' ..).filter _
    · have := h.taken_lt a ha
      have := ((hmem b).1 hb).1.1
      omega
  · intro n hn'
    rw [hmapfst, mem_append] at hn'
    rcases hn' with hn' | hn'
    · have := h.taken_lt n hn'
      dsimp only
      omega
    · exact ((hmem n).1 hn').1.2
  · rw [hmapfst, map_append, map_append, h.given, map_map, map_map]
    refine congrArg _ (map_congr_left fun n hn => ?_)
    obtain ⟨x, hx, hat, -⟩ := hrecord n hn
    simp [hx, hat]
  · intro n hn'
    rw [hmapfst, mem_append] at hn'
    rcases hn' with hn' | hn'
    · exact h.unshown n hn'
    · obtain ⟨x, hx, -, hs, hnot⟩ := hrecord n hn'
      refine ⟨hnot, fun y hy => ?_⟩
      cases hx.symm.trans hy
      exact hs
  · intro n x hx hs hlt
    rw [hmapfst, mem_append]
    by_cases htaken : n < w.ring.taken
    · exact (h.passed n x hx hs htaken).imp_left .inl
    by_cases hover : n + N < w.pushed.length
    · exact .inr (.inr hover)
    by_cases hshown : n ∈ w.shownNums
    · exact .inr (.inl hshown)
    refine .inl (.inr ((hmem n).2 ⟨⟨?_, hlt⟩, ?_⟩))
    · unfold Ring.first
      omega
    · rw [h.at_eq n x hx (by omega)]
      simp [hs, hshown]
  · -- what is given was not written over
    have hgone : ∀ n < w.pushed.length - N, n ∉ out.1 := fun n hn hn' => by
      have := ((hmem n).1 hn').1.1
      omega
    rw [h.lost_eq]
    refine congrArg _ (filter_congr fun n hn => ?_)
    rw [hmapfst]
    simp [hgone n (mem_range.1 hn)]
  · rintro n ⟨hlo, hhi, hs⟩
    have : out.2 ≤ n := le_trans (le_max_left ..) hlo
    dsimp only at hhi hs
    refine .inl ?_
    simp only [Ring.unshownFrom, mem_filter, mem_range'_1]
    exact ⟨by omega, by simpa using hs⟩
  · rfl

/-! ## Show -/

theorem inv_showOne (h : Inv w) (hfirst : w.ring.first ≤ n) (hn : n < w.ring.head) :
    Inv { w with ring := (Ring.showOne (w.ring, w.shownNums) n).1, shownNums := (Ring.showOne (w.ring, w.shownNums) n).2 } ∧
      (Ring.showOne (w.ring, w.shownNums) n).1.head = w.ring.head ∧
      (Ring.showOne (w.ring, w.shownNums) n).1.first = w.ring.first := by
  unfold Ring.showOne
  split_ifs with hc
  swap
  · exact ⟨h, rfl, rfl⟩
  refine ⟨?_, rfl, rfl⟩
  have hhead := h.head_eq
  have hlen : n < w.pushed.length := by omega
  have htaken : w.ring.taken ≤ n := le_trans (le_max_left ..) hfirst
  have hold : w.ring.head - N ≤ n := le_trans (le_max_right ..) hfirst
  have hnot : n ∉ w.takenNums := fun hmem => by
    have := h.taken_lt n hmem
    omega
  -- of the records in the ring, only this one lies in its place
  have hat : ∀ m, w.pushed.length ≤ m + N → m < w.pushed.length →
      ({ w.ring with records := update w.ring.records (n % N) { w.ring.at_ n with shown := true } } :
        Ring N).at_ m = if m = n then { w.ring.at_ n with shown := true } else w.ring.at_ m := by
    intro m hm hm'
    unfold Ring.at_
    by_cases hmn : m = n
    · subst hmn
      simp
    · have hne : m % N ≠ n % N := by
        rcases Nat.lt_or_gt_of_ne hmn with hlt | hlt
        · exact place_ne hlt (by omega)
        · exact (place_ne hlt (by omega)).symm
      simp [hmn, hne]
  refine ⟨hhead, h.taken_le, ?_, h.sorted, h.taken_lt, h.given, ?_, ?_, ?_, ?_, ?_, h.left_eq, h.mark_le, h.reader_le,
    h.reader_eq⟩
  · intro m x hx hm
    rw [hat m hm (List.getElem?_eq_some_iff.1 hx).1]
    split_ifs with hmn
    · subst hmn
      rw [h.at_eq m x hx hm]
      simp
    · rw [h.at_eq m x hx hm]
      simp [hmn]
  · intro m hm
    refine ⟨fun hmem => ?_, (h.unshown m hm).2⟩
    rw [mem_append, mem_singleton] at hmem
    rcases hmem with hmem | rfl
    · exact (h.unshown m hm).1 hmem
    · exact hnot hm
  · intro m hm
    rw [mem_append, mem_singleton] at hm
    rcases hm with hm | rfl
    · exact h.shown_lt m hm
    · exact hlen
  · intro m x hx hs hlt
    refine (h.passed m x hx hs hlt).imp_right fun hor => hor.imp_left fun hmem => ?_
    exact mem_append_left _ hmem
  · refine h.lost_eq.trans ?_
    refine congrArg _ (filter_congr fun m hm => ?_)
    rw [mem_range] at hm
    have hne : m ≠ n := by omega
    simp [hne]
  · rintro m ⟨hlo, hhi, hs⟩
    dsimp only at hlo hhi
    have hge : w.ring.head - N ≤ m := le_trans (le_max_right ..) hlo
    rw [hat m (by omega) (by omega)] at hs
    split_ifs at hs with hmn
    exact h.left m ⟨hlo, hhi, hs⟩

theorem inv_foldl_showOne (ns : List Nat) :
    ∀ {w : World N}, Inv w → (∀ n ∈ ns, w.ring.first ≤ n ∧ n < w.ring.head) →
      Inv { w with ring := (ns.foldl Ring.showOne (w.ring, w.shownNums)).1,
                   shownNums := (ns.foldl Ring.showOne (w.ring, w.shownNums)).2 } := by
  induction ns with
  | nil => exact fun h _ => h
  | cons n ns ih =>
    intro w h hns
    obtain ⟨hn, hns⟩ := forall_mem_cons.1 hns
    obtain ⟨hinv, hhead, hfirst⟩ := inv_showOne h hn.1 hn.2
    refine ih hinv fun m hm => ?_
    rw [hfirst, hhead]
    exact hns m hm

/-- The numbers are collected behind those already there. -/
theorem foldl_showOne_append (ns : List Nat) :
    ∀ (r : Ring N) (l acc : List Nat), ns.foldl Ring.showOne (r, l ++ acc) =
      ((ns.foldl Ring.showOne (r, acc)).1, l ++ (ns.foldl Ring.showOne (r, acc)).2) := by
  induction ns with
  | nil => exact fun r l acc => rfl
  | cons n ns ih =>
    intro r l acc
    have hone : Ring.showOne (r, l ++ acc) n = ((Ring.showOne (r, acc) n).1, l ++ (Ring.showOne (r, acc) n).2) := by
      unfold Ring.showOne
      split_ifs <;> simp
    rw [foldl_cons, foldl_cons, hone, ih]

theorem inv_show (h : Inv w) : Inv (w.step .show_) := by
  have hnums : ∀ n ∈ range' w.ring.first (w.ring.head - w.ring.first), w.ring.first ≤ n ∧ n < w.ring.head := by
    intro n hn
    rw [mem_range'_1] at hn
    omega
  have hinv := inv_foldl_showOne _ h hnums
  have happ := foldl_showOne_append (range' w.ring.first (w.ring.head - w.ring.first)) w.ring w.shownNums []
  rw [append_nil] at happ
  rw [happ] at hinv
  exact hinv

/-! ## Peek -/

/-- **A peek** moves by what it gave and what it says was lost, unless it started past the newest record. -/
theorem peek_spec {r : Ring N} {first : Nat} (h : first ≤ r.head) :
    (r.peek first).2.2 = first + (r.peek first).2.1.count + (r.peek first).2.1.lost ∧
      r.head - N ≤ first + (r.peek first).2.1.lost ∧
      (r.peek first).1 = (range' (first + (r.peek first).2.1.lost) (r.peek first).2.1.count).map r.at_ := by
  have hnext : min (max first (r.head - N)) r.head = first + (r.head - N - first) := by omega
  simp only [Ring.peek, hnext]
  exact ⟨by omega, by omega, trivial⟩

theorem peek_le (r : Ring N) (first : Nat) : (r.peek first).2.2 ≤ r.head := by
  unfold Ring.peek
  dsimp only
  omega

theorem inv_step (hN : 0 < N) (h : Inv w) (op : Op) (hfew : (w.step op).pushed.length < 2 ^ 64) :
    Inv (w.step op) := by
  cases op with
  | push time kind text shown => exact inv_push hN h time kind text shown (by simpa [step] using hfew)
  | take => exact inv_take h
  | show_ => exact inv_show h
  | start first =>
    have hle := peek_le w.ring first
    rw [h.head_eq] at hle
    exact { h with reader_le := hle, reader_eq := rfl }
  | peek =>
    have hle := peek_le w.ring w.reader
    rw [h.head_eq] at hle
    have hspec := (peek_spec (h.head_eq ▸ h.reader_le)).1
    refine { h with reader_le := hle, reader_eq := ?_ }
    have := h.reader_eq
    simp only [step]
    omega

theorem run_append (ops : List Op) (op : Op) : run N (ops ++ [op]) = (run N ops).step op := by
  simp [run]

theorem inv_run (hN : 0 < N) (ops : List Op) (hfew : (run N ops).pushed.length < 2 ^ 64) : Inv (run N ops) := by
  induction ops using reverseRecOn with
  | nil => exact inv_new
  | append_singleton ops op ih =>
    rw [run_append] at hfew ⊢
    have hle : (run N ops).pushed.length ≤ ((run N ops).step op).pushed.length := by
      cases op <;> simp [step]
    exact inv_step hN (ih (lt_of_le_of_lt hle hfew)) op hfew

/-! ## The log -/

/-- One of the statements holds, and no two. -/
def ExactlyOne (ps : List Prop) : Prop := (∃ p ∈ ps, p) ∧ ps.Pairwise fun p q => ¬ (p ∧ q)

/-- What became of a record of text. -/
theorem Inv.exactlyOne (h : Inv w) (hx : w.pushed[n]? = some x)
    (ht : x.isText = true) (hs : x.shown = false) :
    ExactlyOne [n ∈ w.takenNums, n ∈ w.shownNums, n ∈ w.gone, w.Unread n] := by
  have hlen := (List.getElem?_eq_some_iff.1 hx).1
  have hhead := h.head_eq
  have hunread : w.Unread n ↔ w.ring.taken ≤ n ∧ w.pushed.length ≤ n + N ∧ n ∉ w.shownNums := by
    unfold Unread Ring.first
    constructor
    · rintro ⟨h1, h2, h3⟩
      refine ⟨by omega, by omega, fun hmem => ?_⟩
      rw [h.at_eq n x hx (by omega)] at h3
      simp [hmem] at h3
    · rintro ⟨h1, h2, h3⟩
      refine ⟨by omega, by omega, ?_⟩
      rw [h.at_eq n x hx h2]
      simp [hs, h3]
  have hpassed := h.passed n x hx hs
  have htaken := h.taken_lt n
  have hdisj := fun hmem => (h.unshown n hmem).1
  rw [gone_mem hx ht hs, hunread]
  constructor
  · simp only [List.mem_cons, exists_eq_or_imp]
    by_cases h1 : n ∈ w.takenNums
    · exact .inl h1
    by_cases h2 : n ∈ w.shownNums
    · exact .inr (.inl h2)
    refine .inr (.inr ?_)
    simp only [h1, h2, false_or, not_false_iff, and_true] at hpassed ⊢
    omega
  · simp only [List.pairwise_cons, List.mem_cons, List.not_mem_nil, forall_eq_or_imp, not_and, IsEmpty.forall_iff,
      implies_true, List.Pairwise.nil, and_true]
    refine ⟨⟨hdisj, fun h1 _ h2 => absurd h1 h2, fun h1 h2 => absurd (htaken h1) (by omega)⟩,
      ⟨fun h1 _ _ h2 => h2 h1, fun h1 _ _ h2 => h2 h1⟩, fun h1 _ _ h2 => by omega⟩

/-- **The kernel log**: takes give records in the order they were pushed, each once and none that was shown; a
record of text is taken, shown, lost or unread, and the lost ones are as many as the takes said and the next one
will say; an unread one was left by the last take or pushed since; and a reader with `peek` has moved by as much
as it was told, and sees next the records that follow the lost ones. -/
theorem log_ring (hN : 0 < N) (ops : List Op) (hfew : (run N ops).pushed.length < 2 ^ 64) :
    ((run N ops).out.map some = (run N ops).takenNums.map (fun n => (run N ops).pushed[n]?) ∧
      (run N ops).takenNums.Pairwise (· < ·) ∧
      ∀ n ∈ (run N ops).takenNums, n ∉ (run N ops).shownNums ∧
        ∀ x, (run N ops).pushed[n]? = some x → x.shown = false) ∧
    ((∀ n x, (run N ops).pushed[n]? = some x → x.isText = true → x.shown = false →
        ExactlyOne [n ∈ (run N ops).takenNums, n ∈ (run N ops).shownNums, n ∈ (run N ops).gone, (run N ops).Unread n]) ∧
      (run N ops).gone.length = (run N ops).lostSum + (run N ops).ring.lost ∧
      (∀ n, (run N ops).Unread n → n ∈ (run N ops).leftNums ∨ (run N ops).mark ≤ n) ∧
      (run N ops).lastLeft = (run N ops).leftNums.length) ∧
    ((run N ops).reader = (run N ops).base + (run N ops).moved ∧
      ∀ given batch next, (run N ops).ring.peek (run N ops).reader = (given, batch, next) →
        next = (run N ops).reader + batch.count + batch.lost ∧
        given.map some = (range' ((run N ops).reader + batch.lost) batch.count).map fun n =>
          (run N ops).pushed[n]?.map fun x => { x with shown := x.shown || (run N ops).shownNums.contains n }) := by
  have h := inv_run hN ops hfew
  refine ⟨⟨h.given, h.sorted, h.unshown⟩, ⟨fun n x hx ht hs => h.exactlyOne hx ht hs, h.lost_eq.symm, h.left, h.left_eq⟩,
    h.reader_eq, fun given batch next hpeek => ?_⟩
  have hle : (run N ops).reader ≤ (run N ops).ring.head := h.head_eq ▸ h.reader_le
  have hnext := peek_le (run N ops).ring (run N ops).reader
  obtain ⟨h1, h2, h3⟩ := peek_spec hle
  rw [hpeek] at h1 h2 h3 hnext
  dsimp only at h1 h2 h3 hnext
  refine ⟨h1, ?_⟩
  rw [h3, map_map]
  refine map_congr_left fun n hn => ?_
  rw [mem_range'_1] at hn
  have hhead := h.head_eq
  have hx := getElem?_eq_getElem (show n < (run N ops).pushed.length by omega)
  rw [hx, Option.map_some, Function.comp_apply, h.at_eq n _ hx (by omega)]

/-- Two texts in a ring of one record: the first is lost, the second taken. -/
theorem log_ring_one :
    (run 1 [.push 0 1 [7] false, .push 0 1 [8] false, .take]).gone.length = 1 ∧
      ExactlyOne [0 ∈ (run 1 [.push 0 1 [7] false, .push 0 1 [8] false, .take]).takenNums,
        0 ∈ (run 1 [.push 0 1 [7] false, .push 0 1 [8] false, .take]).shownNums,
        0 ∈ (run 1 [.push 0 1 [7] false, .push 0 1 [8] false, .take]).gone,
        (run 1 [.push 0 1 [7] false, .push 0 1 [8] false, .take]).Unread 0] :=
  ⟨by decide, (log_ring (by decide) [.push 0 1 [7] false, .push 0 1 [8] false, .take] (by decide)).2.1.1 0
    ⟨0, 1, [7], false⟩ rfl rfl rfl⟩

theorem run_pushes (k : Nat) :
    (run 1 (replicate k (.push 0 1 [7] false))).pushed = replicate k ⟨0, 1, [7], false⟩ ∧
      (run 1 (replicate k (.push 0 1 [7] false))).takenNums = [] ∧
      (run 1 (replicate k (.push 0 1 [7] false))).shownNums = [] := by
  induction k with
  | zero => exact ⟨rfl, rfl, rfl⟩
  | succ k ih =>
    obtain ⟨h1, h2, h3⟩ := ih
    rw [replicate_succ', run_append, replicate_succ']
    refine ⟨?_, h2, h3⟩
    simp only [step, h1]
    rfl

/-- The push of the last number leaves the ring looking empty. -/
theorem head_run_pushes {k : Nat} (hk : k + 1 = 2 ^ 64) :
    (run 1 (replicate (k + 1) (.push 0 1 [7] false))).ring.head = 0 := by
  have hbefore := (run_pushes k).1
  have hinv := inv_run one_pos (replicate k (.push 0 1 [7] false)) (by
    rw [hbefore, length_replicate]
    omega)
  rw [replicate_succ', run_append]
  simp only [step, Ring.push]
  rw [hinv.head_eq, hbefore, length_replicate, hk, Nat.mod_self]

theorem not_exactlyOne_run_pushes {k : Nat} (hk : k + 1 = 2 ^ 64) :
    ¬ ExactlyOne [k ∈ (run 1 (replicate (k + 1) (.push 0 1 [7] false))).takenNums,
      k ∈ (run 1 (replicate (k + 1) (.push 0 1 [7] false))).shownNums,
      k ∈ (run 1 (replicate (k + 1) (.push 0 1 [7] false))).gone,
      (run 1 (replicate (k + 1) (.push 0 1 [7] false))).Unread k] := by
  obtain ⟨h1, h2, h3⟩ := run_pushes (k + 1)
  rintro ⟨⟨p, hp, hholds⟩, -⟩
  simp only [mem_cons, not_mem_nil, or_false] at hp
  rcases hp with rfl | rfl | rfl | rfl
  · rw [h2] at hholds
    cases hholds
  · rw [h3] at hholds
    cases hholds
  · unfold gone at hholds
    rw [mem_filter, mem_range, h1, length_replicate] at hholds
    exact absurd hholds.1 (by omega)
  · have := hholds.2.1
    rw [head_run_pushes hk] at this
    exact absurd this (Nat.not_lt_zero _)

/-- After 2^64 pushes the last record, a text in the ring, is not among the unread ones, nor anywhere else. -/
theorem last_text_of_all_numbers :
    ∃ k, k + 1 = 2 ^ 64 ∧
      (run 1 (replicate (k + 1) (.push 0 1 [7] false))).pushed[k]? = some ⟨0, 1, [7], false⟩ ∧
      ¬ ExactlyOne [k ∈ (run 1 (replicate (k + 1) (.push 0 1 [7] false))).takenNums,
        k ∈ (run 1 (replicate (k + 1) (.push 0 1 [7] false))).shownNums,
        k ∈ (run 1 (replicate (k + 1) (.push 0 1 [7] false))).gone,
        (run 1 (replicate (k + 1) (.push 0 1 [7] false))).Unread k] := by
  obtain ⟨k, hk⟩ : ∃ k, k + 1 = 2 ^ 64 := ⟨2 ^ 64 - 1, by decide⟩
  refine ⟨k, hk, ?_, not_exactlyOne_run_pushes hk⟩
  rw [(run_pushes (k + 1)).1, getElem?_replicate, if_pos (Nat.lt_succ_self k)]

end World

end LogRing
