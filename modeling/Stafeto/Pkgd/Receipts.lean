import Stafeto.Pkgd.Jobs

/-!
# The receipt of a package (services/pkgd/src/receipts.rs, jobs.rs)

The bytes of a package come in pieces of any lengths. A receipt counts those that came, those hashed, a portion at a
time, and those written, some blocks at a time; the hash of all pages but the last is taken on the way. A stream
stands for the bytes that went into it, and an index outside of a slice is `none`.
-/

namespace Receipts

open ByteStr Store List

/-- `PORTION` (receipts.rs:21). -/
def PORTION : Nat := 16 * 1024

variable {δ : Type*}

/-- `Receipt` (receipts.rs:42). -/
structure Receipt (δ : Type*) where
  size : Nat
  fed : Nat
  hashed : Nat
  written : Nat
  stream : Bytes
  covered : Option δ

namespace Receipt

variable (sha : Bytes → δ) (r : Receipt δ)

/-- `new` (receipts.rs:54). -/
def new (size : Nat) : Receipt δ := ⟨size, 0, 0, 0, [], none⟩

/-- `set_fed` (receipts.rs:75). -/
def setFed (fed : Nat) : Receipt δ := { r with fed := max (min fed r.size) r.fed }

/-- `portion` (receipts.rs:81). -/
def portion : Option (Nat × Nat) :=
  let stop := min r.fed ((r.hashed + PORTION) % 2 ^ 64)
  if r.hashed < stop then some (r.hashed, stop) else none

/-- `absorb` (receipts.rs:87). -/
def absorb (bytes : Bytes) : Option (Receipt δ) :=
  let stop := (r.hashed + bytes.length) % 2 ^ 64
  let boundary := r.size - BLOCK
  if r.covered.isNone ∧ boundary ≤ stop then
    let head := boundary - r.hashed
    if r.hashed ≤ boundary ∧ head ≤ bytes.length then
      let stream := r.stream ++ bytes.take head
      some { r with hashed := stop, stream := stream ++ bytes.drop head, covered := some (sha stream) }
    else none
  else some { r with hashed := stop, stream := r.stream ++ bytes }

/-- `blocks_to_write` (receipts.rs:103). -/
def blocksToWrite : Option (Nat × Nat) :=
  let first := r.written / BLOCK
  let blocks := min ((r.hashed / BLOCK + 2 ^ 64 - first) % 2 ^ 64) (PORTION / BLOCK)
  if 0 < blocks then some (first, blocks) else none

/-- `wrote` (receipts.rs:110). -/
def wrote (blocks : Nat) : Receipt δ := { r with written := (r.written + blocks * BLOCK) % 2 ^ 64 }

/-- `complete` (receipts.rs:115). -/
def complete : Bool := r.fed = r.size ∧ r.hashed = r.size ∧ r.written = r.size

/-- `digests` (receipts.rs:120). -/
def digests : Option (δ × δ) :=
  r.covered.bind fun covered => if r.complete then some (covered, sha r.stream) else none

end Receipt

/-- A receipt, the bytes that came for it, the blocks handed out and whether a write failed. -/
structure Feed (δ : Type*) extends Receipt δ where
  came : Nat
  handed : List Nat
  failed : Bool

/-- A piece comes (`check_feed`, receipts.rs:30), or the worker looks at what came: `cancel` is what it reads of
CANCEL before the portion at a byte, `fails` whether the write at a block of the package fails. -/
inductive Op where
  | feed (len : Nat)
  | pump (cancel fails : Nat → Bool)

namespace Feed

section
variable (sha : Bytes → δ) (data : Bytes) (cancel fails : Nat → Bool)

/-- The inner loop of `pump_feed` (jobs.rs:250); `none` when it has not ended with the fuel. -/
def drain : Nat → Feed δ → Option (Feed δ)
  | 0, _ => none
  | fuel + 1, s => s.blocksToWrite.elim (some s) fun (first, blocks) =>
    if fails first then some { s with failed := true }
    else drain fuel { s with toReceipt := s.wrote blocks, handed := s.handed ++ range' first blocks }

/-- The outer loop (jobs.rs:235). -/
def hash : Nat → Feed δ → Option (Feed δ)
  | 0, _ => none
  | fuel + 1, s => s.portion.elim (some s) fun (first, stop) =>
    if cancel first then some s
    else
      (s.toReceipt.absorb sha (slice data first (stop - first))).bind fun r =>
        (drain fails fuel { s with toReceipt := r }).bind fun s => if s.failed then some s else hash fuel s

/-- `pump_feed` (jobs.rs:221) of an open receipt. -/
def pumpFeed (fuel : Nat) (s : Feed δ) : Option (Feed δ) :=
  if s.failed then some s else hash sha data cancel fails fuel { s with toReceipt := s.setFed s.came }

variable (fuel : Nat)

def exec (s : Feed δ) : Op → Option (Feed δ)
  | .feed len => some (if s.came + len ≤ s.size then { s with came := s.came + len } else s)
  | .pump cancel fails => s.pumpFeed sha data cancel fails fuel

def run (ops : List Op) : Option (Feed δ) := ops.foldlM (exec sha data fuel) ⟨.new data.length, 0, [], false⟩

/-- What the counts stand for. -/
structure Inv (s : Feed δ) : Prop where
  size : s.size = data.length
  came : s.fed ≤ s.came ∧ s.came ≤ data.length
  hashed : s.hashed ≤ s.fed
  handed : s.handed = range s.handed.length
  written : s.written = s.handed.length * BLOCK ∧ s.written ≤ s.hashed
  stream : s.stream = data.take s.hashed
  covered : s.covered = if s.hashed < data.length - BLOCK then none else some (sha (data.take (data.length - BLOCK)))

/-- Between two looks of the worker every whole block that was hashed is written, unless a write failed. -/
structure Rest (s : Feed δ) : Prop extends Inv sha data s where
  whole : s.failed = false → s.handed.length = s.hashed / BLOCK

end

variable {sha : Bytes → δ} {data : Bytes} {first stop blocks fuel : Nat} {s : Feed δ}

section
variable (h : Inv sha data s)
include h

/-- A portion goes into the hash; where the covered part ends inside, its hash is taken there. -/
theorem Inv.absorb (hp : s.portion = some (first, stop)) :
    ∃ r, s.toReceipt.absorb sha (slice data first (stop - first)) = some r ∧ r.fed = s.fed ∧ s.hashed < r.hashed ∧
      Inv sha data { s with toReceipt := r } := by
  obtain ⟨hfed, hlen⟩ := h.came
  obtain ⟨hw, hwh⟩ := h.written
  have hcov := h.covered
  simp only [Receipt.portion, Option.ite_none_right_eq_some, Option.some.injEq, Prod.mk.injEq] at hp
  obtain ⟨hpos, rfl, hstop⟩ := hp
  rw [hstop] at hpos
  have hle : stop ≤ s.fed := hstop ▸ min_le_left _ _
  have hmod : (s.hashed + (slice data s.hashed (stop - s.hashed)).length) % 2 ^ 64 = stop := by
    rw [length_slice, Nat.mod_eq_of_lt]
    · omega
    · omega
  have htake : ∀ n, s.hashed ≤ n → s.stream ++ slice data s.hashed (n - s.hashed) = data.take n := fun n hn => by
    rw [h.stream, slice, ← take_add, Nat.add_sub_cancel' hn]
  have hall := htake stop hpos.le
  simp only [Receipt.absorb, hmod, h.size]
  by_cases hlow : s.hashed < data.length - BLOCK
  · rw [if_pos hlow] at hcov
    by_cases hend : data.length - BLOCK ≤ stop
    · rw [if_pos ⟨by rw [hcov]; rfl, hend⟩, if_pos ⟨hlow.le, by rw [length_slice]; omega⟩]
      refine ⟨_, rfl, rfl, hpos, rfl, h.came, hle, h.handed, ⟨hw, hwh.trans hpos.le⟩, ?_, ?_⟩
      · rw [append_assoc, take_append_drop, hall]
      · rw [if_neg (Nat.not_lt.2 hend), ← htake _ hlow.le, slice, slice, take_take, min_eq_left (by omega)]
    · rw [if_neg fun hc => hend hc.2]
      refine ⟨_, rfl, rfl, hpos, rfl, h.came, hle, h.handed, ⟨hw, hwh.trans hpos.le⟩, hall, ?_⟩
      rw [if_pos (Nat.not_le.1 hend)]
      exact hcov
  · rw [if_neg hlow] at hcov
    rw [if_neg fun hc => by simp [hcov] at hc]
    refine ⟨_, rfl, rfl, hpos, rfl, h.came, hle, h.handed, ⟨hw, hwh.trans hpos.le⟩, hall, ?_⟩
    rw [if_neg fun hc => hlow (hpos.trans hc)]
    exact hcov

variable (hlt : data.length + PORTION ≤ 2 ^ 64)
include hlt

theorem Inv.portion : s.portion =
    if s.hashed < s.fed then some (s.hashed, min s.fed (s.hashed + PORTION)) else none := by
  have hcame := h.came
  have hhashed := h.hashed
  have hpos : 0 < PORTION := by decide
  simp only [Receipt.portion]
  split
  · next hlow =>
    have hlow' : s.hashed < s.fed := hlow.trans_le (min_le_left ..)
    rw [if_pos hlow', Nat.mod_eq_of_lt (by omega)]
  · next hlow =>
    rw [if_neg fun hc => hlow (lt_min hc ?_)]
    rw [Nat.mod_eq_of_lt (by omega)]
    omega

/-- The blocks to write are the next ones, as far as all their bytes were hashed. -/
theorem Inv.blocksToWrite : s.blocksToWrite =
    let blocks := min (s.hashed / BLOCK - s.handed.length) (PORTION / BLOCK)
    if 0 < blocks then some (s.handed.length, blocks) else none := by
  have hB : 0 < BLOCK := by decide
  obtain ⟨hw, hwh⟩ := h.written
  rw [hw] at hwh
  have hle := (Nat.le_div_iff_mul_le hB).2 hwh
  have hsmall := (Nat.div_le_self s.hashed BLOCK).trans (h.hashed.trans (h.came.1.trans h.came.2))
  have hpos : 0 < PORTION := by decide
  have hsub : (s.hashed / BLOCK + 2 ^ 64 - s.handed.length) % 2 ^ 64 = s.hashed / BLOCK - s.handed.length := by omega
  simp only [Receipt.blocksToWrite, hw, Nat.mul_div_cancel _ hB, hsub]

theorem Inv.write (hle : s.handed.length + blocks ≤ s.hashed / BLOCK) :
    Inv sha data { s with toReceipt := s.wrote blocks, handed := s.handed ++ range' s.handed.length blocks } := by
  have hnext : s.handed ++ range' s.handed.length blocks = range (s.handed.length + blocks) := by
    nth_rewrite 1 [h.handed]
    rw [range_eq_range', range_eq_range', ← range'_append_1, Nat.zero_add]
  have hle' := (Nat.le_div_iff_mul_le (show 0 < BLOCK by decide)).1 hle
  have hwrote : (s.wrote blocks).written = (s.handed.length + blocks) * BLOCK := by
    have hcame := h.came
    have hhashed := h.hashed
    have hpos : 0 < PORTION := by decide
    rw [Receipt.wrote, h.written.1, ← Nat.add_mul]
    exact Nat.mod_eq_of_lt (by omega)
  rw [hnext]
  refine ⟨h.size, h.came, h.hashed, ?_, ?_, h.stream, h.covered⟩
  · rw [length_range]
  · rw [length_range, hwrote]
    exact ⟨rfl, hle'⟩

/-- The inner loop writes every whole block, or a write fails. -/
theorem Inv.drain (fails : Nat → Bool) (hf : s.hashed / BLOCK < fuel + s.handed.length) :
    ∃ s', drain fails fuel s = some s' ∧ Rest sha data s' ∧ s'.hashed = s.hashed ∧ s'.fed = s.fed ∧ s'.came = s.came ∧
      ((∀ n, fails n = false) → s'.failed = s.failed) := by
  have hle : s.handed.length ≤ s.hashed / BLOCK :=
    (Nat.le_div_iff_mul_le (by decide)).2 (h.written.1 ▸ h.written.2)
  induction fuel generalizing s with
  | zero => omega
  | succ fuel ih =>
    rw [Feed.drain, h.blocksToWrite hlt]
    by_cases hpos : 0 < min (s.hashed / BLOCK - s.handed.length) (PORTION / BLOCK)
    · simp only [if_pos hpos, Option.elim_some]
      split
      · next hfail =>
        exact ⟨_, rfl, ⟨⟨h.size, h.came, h.hashed, h.handed, h.written, h.stream, h.covered⟩, nofun⟩, rfl, rfl, rfl,
          fun hno => by simp [hno] at hfail⟩
      · have hlen : ∀ n, (s.handed ++ range' s.handed.length n).length = s.handed.length + n := by simp
        refine ih (h.write hlt (by omega)) ?_ ?_
        · simp only [hlen]
          show s.hashed / BLOCK < _
          omega
        · simp only [hlen]
          show _ ≤ s.hashed / BLOCK
          omega
    · simp only [if_neg hpos, Option.elim_none]
      have hB : 0 < PORTION / BLOCK := by decide
      exact ⟨s, rfl, ⟨h, fun _ => by omega⟩, rfl, rfl, rfl, fun _ => rfl⟩

omit h in
/-- The outer loop hashes all that was fed, unless it is cancelled or a write fails. -/
theorem Rest.hash (cancel fails : Nat → Bool) (h : Rest sha data s) (hno : s.failed = false)
    (hf : s.fed + data.length < fuel + s.hashed) :
    ∃ s', hash sha data cancel fails fuel s = some s' ∧ Rest sha data s' ∧ s'.fed = s.fed ∧ s'.came = s.came ∧
      ((∀ n, cancel n = false) → (∀ n, fails n = false) → s'.failed = false ∧ s'.hashed = s.fed) := by
  induction fuel generalizing s with
  | zero =>
    have := h.hashed
    have := h.came
    omega
  | succ fuel ih =>
    have hportion := h.toInv.portion hlt
    rw [Feed.hash]
    by_cases hlow : s.hashed < s.fed
    · rw [if_pos hlow] at hportion
      rw [hportion, Option.elim_some]
      dsimp only
      split
      · next hc => exact ⟨s, rfl, h, rfl, rfl, fun hn => by simp [hn] at hc⟩
      · obtain ⟨r, hr, hfed, hmore, hi⟩ := h.toInv.absorb hportion
        have hblocks := Nat.div_le_self r.hashed BLOCK
        have hr₁ : r.hashed ≤ r.fed := hi.hashed
        have hr₂ : r.fed ≤ s.came ∧ s.came ≤ data.length := hi.came
        have hfuel : r.hashed / BLOCK < fuel + s.handed.length := by omega
        obtain ⟨s₁, h₁, hrest, hh₁, hf₁, hc₁, hok₁⟩ := hi.drain hlt fails hfuel
        rw [hr, Option.bind_some, h₁, Option.bind_some]
        split
        · next hfail => exact ⟨s₁, rfl, hrest, hf₁.trans hfed, hc₁, fun _ hn => by simp [hok₁ hn, hno] at hfail⟩
        · next hgood =>
          have hleft : s₁.fed + data.length < fuel + s₁.hashed := by
            rw [hh₁, hf₁]
            show r.fed + _ < _ + r.hashed
            omega
          obtain ⟨s₂, h₂, hrest₂, hf₂, hc₂, hok₂⟩ := ih hrest (Bool.eq_false_iff.2 hgood) hleft
          rw [hf₁, hfed] at hf₂ hok₂
          exact ⟨s₂, h₂, hrest₂, hf₂, hc₂.trans hc₁, hok₂⟩
    · rw [if_neg hlow] at hportion
      rw [hportion, Option.elim_none]
      exact ⟨s, rfl, h, rfl, rfl, fun _ _ => ⟨hno, by have := h.hashed; omega⟩⟩

omit h in
/-- A look of the worker at what came. -/
theorem Rest.pumpFeed (cancel fails : Nat → Bool) (h : Rest sha data s) (hfuel : 2 * data.length < fuel) :
    ∃ s', s.pumpFeed sha data cancel fails fuel = some s' ∧ Rest sha data s' ∧ (s.failed = false →
      (∀ n, cancel n = false) → (∀ n, fails n = false) →
        s'.failed = false ∧ s'.came = s.came ∧ s'.fed = s.came ∧ s'.hashed = s.came) := by
  obtain ⟨hfed, hcame⟩ := h.came
  have hset : (s.setFed s.came).fed = s.came := by
    simp only [Receipt.setFed, h.size]
    omega
  have hrest : Rest sha data { s with toReceipt := s.setFed s.came } :=
    ⟨⟨h.size, ⟨hset.le, hcame⟩, h.hashed.trans (hfed.trans hset.ge), h.handed, h.written, h.stream, h.covered⟩, h.whole⟩
  unfold Feed.pumpFeed
  split
  · next hfail => exact ⟨s, rfl, h, fun hno => by simp [hno] at hfail⟩
  · next hgood =>
    have hf : (s.setFed s.came).fed + data.length < fuel + s.hashed := by omega
    obtain ⟨s', h', hr, hf, hc, hok⟩ := hrest.hash hlt cancel fails (Bool.eq_false_iff.2 hgood) hf
    simp only [hset] at hf hc hok
    exact ⟨s', h', hr, fun _ h₁ h₂ => ⟨(hok h₁ h₂).1, hc, hf, (hok h₁ h₂).2⟩⟩

omit h in
theorem Rest.run (h : Rest sha data s) (hfuel : 2 * data.length < fuel) (ops : List Op) :
    ∃ s', ops.foldlM (Feed.exec sha data fuel) s = some s' ∧ Rest sha data s' := by
  induction ops generalizing s with
  | nil => exact ⟨s, rfl, h⟩
  | cons op ops ih =>
    have hop : ∃ s₁, s.exec sha data fuel op = some s₁ ∧ Rest sha data s₁ := by
      cases op with
      | feed len =>
        refine ⟨_, rfl, ?_⟩
        split
        · next hle =>
          exact ⟨⟨h.size, ⟨h.came.1.trans (Nat.le_add_right ..), h.size ▸ hle⟩, h.hashed, h.handed, h.written, h.stream,
            h.covered⟩, h.whole⟩
        · exact h
      | pump cancel fails =>
        obtain ⟨s₁, h₁, hi, -⟩ := h.pumpFeed hlt cancel fails hfuel
        exact ⟨s₁, h₁, hi⟩
    obtain ⟨s₁, h₁, hi⟩ := hop
    obtain ⟨s₂, h₂, hi₂⟩ := ih hi
    exact ⟨s₂, by rw [foldlM_cons, h₁]; exact h₂, hi₂⟩

end

/-- What the jobs keep of a receipt: the bytes that came, and how many are written. -/
def job (data : Bytes) (number : UInt32) (s : Feed δ) : Plans.Receipt := ⟨number, s.size, data.take s.came, s.written⟩

/-- A turn of the inner loop is a `pump` of the jobs, and what `commit` asks of the receipt there is `complete`. -/
theorem Inv.job (h : Inv sha data s) (hlt : data.length + PORTION ≤ 2 ^ 64) (number : UInt32) :
    (∀ first blocks, s.blocksToWrite = some (first, blocks) →
      Jobs.portion (s.job data number) blocks =
        (first, (range blocks).map fun i => slice data (BLOCK * (first + i)) BLOCK) ∧
      { s with toReceipt := s.wrote blocks }.job data number =
        { s.job data number with written := s.written + BLOCK * blocks }) ∧
    (s.complete = true ↔
      (s.job data number).fed.length = (s.job data number).size ∧ (s.job data number).written = s.size) := by
  have hcame := h.came
  have hhashed := h.hashed
  obtain ⟨hw, hwh⟩ := h.written
  have hlen : (data.take s.came).length = s.came := length_take_of_le hcame.2
  refine ⟨fun first blocks hb => ?_, ?_⟩
  · rw [h.blocksToWrite hlt] at hb
    simp only [Option.ite_none_right_eq_some, Option.some.injEq, Prod.mk.injEq] at hb
    obtain ⟨hpos, rfl, hblocks⟩ := hb
    have hB : 0 < BLOCK := by decide
    have hP : 0 < PORTION := by decide
    have hend : (s.handed.length + blocks) * BLOCK ≤ s.came :=
      ((Nat.le_div_iff_mul_le hB).1 (by omega)).trans (hhashed.trans hcame.1)
    have hall := (Nat.le_div_iff_mul_le hB).2 hend
    refine ⟨?_, ?_⟩
    · simp only [Jobs.portion, Feed.job, hlen, hw, Nat.mul_div_cancel _ hB]
      rw [min_eq_left (by omega)]
      refine congrArg _ (map_congr_left fun i hi => ?_)
      have hi' := Nat.mul_le_mul_left BLOCK (show s.handed.length + i + 1 ≤ s.handed.length + blocks by simp at hi; omega)
      rw [Nat.mul_add_one, Nat.mul_comm BLOCK (s.handed.length + blocks)] at hi'
      rw [← slice_append_left (data.take s.came) (data.drop s.came) (by omega), take_append_drop]
    · rw [Nat.add_mul, ← hw, Nat.mul_comm blocks] at hend
      simp only [Feed.job, Receipt.wrote, Nat.mul_comm blocks,
        Nat.mod_eq_of_lt (show s.written + BLOCK * blocks < 2 ^ 64 by omega)]
  · simp only [Receipt.complete, decide_eq_true_iff, Feed.job, hlen]
    have := h.size
    omega

/-- A receipt is complete when everything came, was hashed and written. -/
theorem Inv.complete_iff (h : Inv sha data s) {pages : Nat} (hlen : data.length = pages * BLOCK) :
    s.complete = true ↔ s.came = data.length ∧ s.stream = data ∧ s.handed = range pages := by
  have hcame := h.came
  have hhashed := h.hashed
  obtain ⟨hw, hwh⟩ := h.written
  have hstream : s.stream = data ↔ s.hashed = data.length := by
    rw [h.stream, take_eq_self_iff]
    omega
  have hhanded : s.handed = range pages ↔ s.written = data.length := by
    rw [hw, hlen, Nat.mul_left_inj (show BLOCK ≠ 0 by decide)]
    refine ⟨fun hr => by rw [hr, length_range], fun hr => ?_⟩
    rw [← hr]
    exact h.handed
  rw [Receipt.complete, decide_eq_true_iff, h.size, hstream, hhanded]
  omega

/-- **The receipt of a package**, after any pieces and any looks of the worker, of a size whose sums stay in 64 bits
(`begin` takes fewer than 2^32 blocks): the loops end; the blocks are handed out in order, each once and after its
bytes were hashed, and unless a write failed all whole blocks are that were hashed; a look that is not cancelled and
whose writes succeed hashes all that came, and when that is the package completes the receipt. -/
theorem receipt_of_feed (sha : Bytes → δ) (data : Bytes) (pages fuel : Nat) (hpages : 2 ≤ pages)
    (hlen : data.length = pages * BLOCK) (hlt : data.length + PORTION ≤ 2 ^ 64) (hfuel : 2 * data.length < fuel)
    (ops : List Op) :
    ∃ s, run sha data fuel ops = some s ∧
      s.handed = range s.handed.length ∧ s.handed.length * BLOCK ≤ s.hashed ∧ s.stream = data.take s.hashed ∧
      (s.failed = false → s.handed = range (s.hashed / BLOCK) ∧
        ∃ s', s.pumpFeed sha data (fun _ => false) (fun _ => false) fuel = some s' ∧
          s'.stream = data.take s.came ∧ s'.handed = range (s.came / BLOCK) ∧
          (s.came = data.length → s'.complete = true)) ∧
      (s.complete = true ↔ s.came = data.length ∧ s.stream = data ∧ s.handed = range pages) ∧
      s.digests sha = if s.complete then some (sha (data.take (data.length - BLOCK)), sha data) else none := by
  have hstart : Rest sha data ⟨.new data.length, 0, [], false⟩ := by
    have htwo := Nat.mul_le_mul_right BLOCK hpages
    refine ⟨⟨rfl, ⟨le_rfl, Nat.zero_le _⟩, le_rfl, rfl, by simp [Receipt.new], rfl, (if_pos ?_).symm⟩,
      fun _ => (Nat.zero_div _).symm⟩
    have : 0 < BLOCK := by decide
    simp only [Receipt.new]
    omega
  obtain ⟨s, hs, h⟩ := hstart.run hlt hfuel ops
  have hcomplete := h.complete_iff hlen
  refine ⟨s, hs, h.handed, h.written.1 ▸ h.written.2, h.stream, fun hno => ⟨h.whole hno ▸ h.handed, ?_⟩, hcomplete, ?_⟩
  · obtain ⟨s', h', hr, hok⟩ := h.pumpFeed hlt (fun _ => false) (fun _ => false) hfuel
    obtain ⟨hgood, hc, hf, hh⟩ := hok hno (fun _ => rfl) fun _ => rfl
    have hstream : s'.stream = data.take s.came := hh ▸ hr.stream
    have hhanded : s'.handed = range (s.came / BLOCK) := by
      rw [hr.handed, hr.whole hgood, hh]
    refine ⟨s', h', hstream, hhanded, fun hall => (hr.complete_iff hlen).2 ⟨hc.trans hall, ?_, ?_⟩⟩
    · rw [hstream, hall, take_length]
    · rw [hhanded, hall, hlen, Nat.mul_div_cancel _ (by decide)]
  by_cases hc : s.complete = true
  · obtain ⟨-, hall, -⟩ := hcomplete.1 hc
    have hcov := h.covered
    have hlen' := congrArg length hall
    rw [h.stream, length_take] at hlen'
    rw [if_neg (by omega)] at hcov
    rw [Receipt.digests, hcov, Option.bind_some, if_pos hc, if_pos hc, hall]
  · rw [Receipt.digests]
    simp [hc]

/-- Two pages in three pieces, with a look that is cancelled and one in the middle of a page: both blocks are handed
out, and the receipt is complete. -/
theorem receipt_of_feed_two_pages :
    let look := Op.pump (fun _ => false) fun _ => false
    ∃ s, run id (replicate 8192 0) 16385 [.feed 1000, look, .feed 4096, .pump (fun _ => true) fun _ => false,
        .feed 3096, look] = some s ∧ s.handed = [0, 1] ∧ s.complete = true := by
  intro look
  obtain ⟨s, hs, -, -, hstream, -, hcomplete, -⟩ := receipt_of_feed id (replicate 8192 0) 2 16385 le_rfl
    (length_replicate ..) (by rw [length_replicate]; decide) (by rw [length_replicate]; decide)
    [.feed 1000, look, .feed 4096, .pump (fun _ => true) fun _ => false, .feed 3096, look]
  have hend : (run id (replicate 8192 0) 16385 [.feed 1000, look, .feed 4096, .pump (fun _ => true) fun _ => false,
      .feed 3096, look]).map (fun s => (s.handed, s.came, s.hashed)) = some ([0, 1], 8192, 8192) := by
    decide +kernel
  rw [hs, Option.map_some, Option.some.injEq, Prod.mk.injEq, Prod.mk.injEq] at hend
  obtain ⟨hhanded, hcame, hhashed⟩ := hend
  refine ⟨s, hs, hhanded, hcomplete.2 ⟨hcame.trans (length_replicate ..).symm, ?_, hhanded⟩⟩
  rw [hstream, hhashed, take_of_length_le (length_replicate ..).le]

end Feed

end Receipts
