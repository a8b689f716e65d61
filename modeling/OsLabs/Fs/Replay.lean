import Mathlib.Data.Finset.Card
import Mathlib.Data.Fintype.Basic
import OsLabs.Fs.Log

/-!
# What the disk would be after recovery

`replay` is the disk that `recover_from_log` would leave: a block of the header on the disk has its
copy in the log, every other block is itself. It is defined on every state of the disk, also in
the middle of a commit, and the invariant `OnDisk` says what each phase of `commit` and
`recover_from_log` has made of it.

* Of all the writes to the disk only `write_head` in `commit` changes `replay`, from the blocks
  before the transaction to those after it.
* `OnDisk` holds of every reachable state; so does `Counted`, which ties `log.outstanding` and
  `log.committing` to where the processes stand.
-/

namespace OsLabs.Fs

open Xv6 State

variable {sb : Super} {s s' : State} {lh : List ℕ} {b c tail : ℕ} {v : Block}

/-! ## Buffers -/

namespace State

@[simp]
theorem bread_load (s : State) (b : ℕ) : (s.load b).bread = s.bread := by
  ext c i
  obtain rfl | hc := eq_or_ne c b
  · simp [bread, load]
  · simp [bread, load, hc]

@[simp]
theorem bread_bwrite (s : State) (b : ℕ) (v : Block) :
    (s.bwrite b v).bread = Function.update s.bread b v := by
  ext c i
  obtain rfl | hc := eq_or_ne c b
  · simp [bread, bwrite]
  · simp [bread, bwrite, hc]

@[simp] theorem disk_load (s : State) (b : ℕ) : (s.load b).disk = s.disk := rfl

@[simp]
theorem disk_bwrite (s : State) (b : ℕ) (v : Block) :
    (s.bwrite b v).disk = Function.update s.disk b v := rfl

end State

/-- The clean buffers hold what the disk holds, and the dirty ones are not recycled. -/
def Cached (s : State) : Prop :=
  (∀ b v, s.data b = some v → s.dirty b = false → v = s.disk b) ∧
    ∀ b, s.dirty b = true → (s.data b).isSome

namespace Cached

theorem bread (h : Cached s) (hb : s.dirty b = false) : s.bread b = s.disk b := by
  cases hd : s.data b with
  | none => simp [State.bread, hd]
  | some v => simp [State.bread, hd, h.1 b v hd hb]

theorem load (h : Cached s) (b : ℕ) : Cached (s.load b) := by
  refine ⟨fun c v hv hc => ?_, fun c hc => ?_⟩
  · obtain rfl | hne := eq_or_ne c b
    · obtain rfl : s.bread c = v := by simpa [State.load] using hv
      exact h.bread hc
    · exact h.1 c v (by simpa [State.load, hne] using hv) hc
  · obtain rfl | hne := eq_or_ne c b
    · simp [State.load]
    · simpa [State.load, hne] using h.2 c hc

theorem bwrite (h : Cached s) (b : ℕ) (v : Block) : Cached (s.bwrite b v) := by
  refine ⟨fun c w hw hc => ?_, fun c hc => ?_⟩
  · obtain rfl | hne := eq_or_ne c b
    · simpa [State.bwrite, eq_comm] using hw
    · have hw : s.data c = some w := by simpa [State.bwrite, hne] using hw
      have hc : s.dirty c = false := by simpa [State.bwrite, hne] using hc
      simpa [State.bwrite, hne] using h.1 c w hw hc
  · obtain rfl | hne := eq_or_ne c b
    · simp [State.bwrite]
    · have hc : s.dirty c = true := by simpa [State.bwrite, hne] using hc
      simpa [State.bwrite, hne] using h.2 c hc

theorem dirtied (h : Cached s) (b : ℕ) (v : Block) :
    Cached { s with
      data := Function.update s.data b (some v)
      dirty := Function.update s.dirty b true } := by
  refine ⟨fun c w hw hc => ?_, fun c hc => ?_⟩
  · obtain rfl | hne := eq_or_ne c b
    · simp at hc
    · exact h.1 c w (by simpa [hne] using hw) (by simpa [hne] using hc)
  · obtain rfl | hne := eq_or_ne c b
    · simp
    · simpa [hne] using h.2 c (by simpa [hne] using hc)

theorem recycle (h : Cached s) (hb : s.dirty b = false) :
    Cached { s with data := Function.update s.data b none } := by
  refine ⟨fun c w hw hc => ?_, fun c hc => ?_⟩
  · obtain rfl | hne := eq_or_ne c b
    · simp at hw
    · exact h.1 c w (by simpa [hne] using hw) hc
  · obtain rfl | hne := eq_or_ne c b
    · simp [hb] at hc
    · simpa [hne] using h.2 c hc

end Cached

/-! ## The header -/

/-- A header that `log_write` can have built: its blocks are distinct, none is in the log, and
their copies fit into the log. -/
structure Header (sb : Super) (lh : List ℕ) : Prop where
  nodup : lh.Nodup
  home : ∀ b ∈ lh, sb.Home b
  fits : lh.length < sb.nlog

namespace Header

theorem nil : Header sb [] := ⟨List.nodup_nil, by simp, sb.nlog_pos⟩

theorem ne_log (h : Header sb lh) (hb : sb.Home b) {i : ℕ} (hi : i ≤ lh.length) :
    b ≠ sb.logstart + i := by
  have hfits := h.fits
  unfold Super.Home at hb
  omega

end Header

theorem Super.Home.ne_logstart (hb : sb.Home b) : b ≠ sb.logstart := by
  have hpos := sb.nlog_pos
  unfold Super.Home at hb
  omega

theorem record_eq (lh : List ℕ) (b : ℕ) : record lh b = if b ∈ lh then lh else lh ++ [b] := by
  unfold record
  by_cases hb : b ∈ lh
  · have hi := List.idxOf_lt_length_of_mem hb
    have hset : lh.set (lh.idxOf b) b = lh := by
      have hself := List.set_getElem_self hi
      rwa [List.getElem_idxOf hi] at hself
    simp only [hb, hi.ne, if_false, if_true, hset]
  · simp only [hb, List.idxOf_eq_length hb, if_false, if_true]

/-- What `log_write` does when it does not panic. -/
theorem log_write_eq_some (h : s.log_write sb b v = some s') :
    s.lh.length < LOGSIZE ∧ s.lh.length + 1 < sb.nlog ∧ 0 < s.outstanding ∧
      s' = { s with
        data := Function.update s.data b (some v)
        dirty := Function.update s.dirty b true
        lh := record s.lh b } := by
  unfold State.log_write at h
  split at h
  · cases h
  · rename_i hfits
    unfold State.TooBig at hfits
    split at h
    · cases h
    · cases h
      exact ⟨by omega, by omega, by omega, rfl⟩

theorem Header.record (h : Header sb lh) (hb : sb.Home b) (hroom : lh.length + 1 < sb.nlog) :
    Header sb (record lh b) := by
  rw [record_eq]
  split
  · exact h
  · refine ⟨?_, ?_, by simpa using hroom⟩
    · rename_i hne
      exact List.Nodup.append h.nodup (List.nodup_singleton b) (by simpa using hne)
    · intro c hc
      obtain hc | hc := List.mem_append.mp hc
      · exact h.home c hc
      · rw [List.mem_singleton.mp hc]
        exact hb

/-! ## Replay -/

/-- The header on the disk. -/
def head (sb : Super) (disk : ℕ → Block) : List ℕ := decode (disk sb.logstart)

/-- The disk after recovery. -/
def replay (sb : Super) (disk : ℕ → Block) (b : ℕ) : Block :=
  if b ∈ head sb disk then disk (sb.logstart + (head sb disk).idxOf b + 1) else disk b

variable {disk : ℕ → Block}

theorem replay_of_mem {i : ℕ} (h : Header sb (head sb disk)) (hi : (head sb disk)[i]? = some b) :
    replay sb disk b = disk (sb.logstart + i + 1) := by
  obtain ⟨hlt, hb⟩ := List.getElem?_eq_some_iff.mp hi
  have hmem : b ∈ head sb disk := List.mem_of_getElem? hi
  have hidx : (head sb disk).idxOf b = i := by rw [← hb, h.nodup.idxOf_getElem]
  rw [replay, if_pos hmem, hidx]

theorem replay_of_notMem (hb : b ∉ head sb disk) : replay sb disk b = disk b := if_neg hb

theorem replay_of_nil (h : head sb disk = []) : replay sb disk = disk := by
  ext b
  rw [replay_of_notMem (by simp [h])]

/-- A write to the log behind an empty header does not change what recovery leaves. -/
theorem replay_update_log (h : head sb disk = []) (hb : sb.Home b) (hc : ¬ sb.Home c)
    (hne : c ≠ sb.logstart) : replay sb (Function.update disk c v) b = replay sb disk b := by
  have hhead : head sb (Function.update disk c v) = [] := by
    rw [head, Function.update_of_ne hne.symm]
    exact h
  have hbc : b ≠ c := by
    rintro rfl
    exact hc hb
  rw [replay_of_nil h, replay_of_nil hhead, Function.update_of_ne hbc]

/-- Neither does the write of a block of the header to its home. -/
theorem replay_update_home (h : Header sb (head sb disk)) (hc : c ∈ head sb disk)
    (v : Block) : replay sb (Function.update disk c v) b = replay sb disk b := by
  have hhead : head sb (Function.update disk c v) = head sb disk := by
    rw [head, Function.update_of_ne (h.home c hc).ne_logstart.symm, head]
  unfold replay
  rw [hhead]
  split
  · rename_i hb
    have hi := List.idxOf_lt_length_of_mem hb
    have hne : sb.logstart + (head sb disk).idxOf b + 1 ≠ c := by
      rw [Nat.add_assoc]
      exact (h.ne_log (h.home c hc) hi).symm
    rw [Function.update_of_ne hne]
  · rename_i hb
    rw [Function.update_of_ne]
    rintro rfl
    exact hb hc

theorem head_write_head (lh : List ℕ) (old : Block) :
    head sb (Function.update disk sb.logstart (encode lh old)) = lh := by
  rw [head, Function.update_self, decode_encode]

/-! ## The phases of a commit -/

/-- The first `n` blocks of the header have their copies in the log. -/
def Copied (sb : Super) (s : State) (n : ℕ) : Prop :=
  ∀ i b, i < n → s.lh[i]? = some b → s.disk (sb.logstart + i + 1) = s.bread b

/-- The first `n` blocks of the header are home. -/
def Installed (sb : Super) (s : State) (n : ℕ) : Prop :=
  ∀ i b, i < n → s.lh[i]? = some b → s.disk b = s.disk (sb.logstart + i + 1)

/-- Recovery would leave the blocks that `bread` returns. -/
def Settled (sb : Super) (s : State) : Prop := ∀ b, sb.Home b → replay sb s.disk b = s.bread b

/-- What holds before the next step of `commit` or `recover_from_log`. -/
def Phase (sb : Super) (s : State) : Pc → Prop
  | .idle => s.up ∧ s.committing = false ∧ head sb s.disk = []
  | .read_head => s.up = false ∧ s.committing = false ∧ s.lh = []
  | .write_log tail => s.up ∧ s.committing ∧ head sb s.disk = [] ∧ Copied sb s tail
  | .write_head => s.up ∧ s.committing ∧ head sb s.disk = [] ∧ Copied sb s s.lh.length
  | .install_trans tail => s.up = s.committing ∧ head sb s.disk = s.lh ∧ Installed sb s tail ∧
      (s.up → Settled sb s)
  | .clear_head => s.up = s.committing ∧ s.lh = [] ∧ (s.up → Settled sb s) ∧
      ∀ b, sb.Home b → replay sb s.disk b = s.disk b
  | .finish => s.up = s.committing ∧ s.lh = [] ∧ head sb s.disk = []

/-- The blocks whose buffers may be dirty. -/
def pending (s : State) : Pc → List ℕ
  | .install_trans tail => s.lh.drop tail
  | _ => s.lh

/-- The disk, the buffers and the header agree with the phase. -/
structure OnDisk (sb : Super) (s : State) : Prop where
  cached : Cached s
  dirty : ∀ b, s.dirty b = true → b ∈ pending s s.pc
  lh : Header sb s.lh
  head : Header sb (head sb s.disk)
  phase : Phase sb s s.pc

namespace OnDisk

theorem of_pending (h : OnDisk sb s) (hb : s.dirty b = true) : b ∈ s.lh := by
  have hmem := h.dirty b hb
  unfold pending at hmem
  split at hmem
  · exact List.mem_of_mem_drop hmem
  · exact hmem

/-- The buffers of the log and of the header are clean. -/
theorem clean_log (h : OnDisk sb s) {i : ℕ} (hi : i ≤ s.lh.length) :
    s.dirty (sb.logstart + i) = false := by
  rw [← Bool.not_eq_true]
  intro hd
  exact h.lh.ne_log (h.lh.home _ (h.of_pending hd)) hi rfl

theorem bread_log (h : OnDisk sb s) {i : ℕ} (hi : i ≤ s.lh.length) :
    s.bread (sb.logstart + i) = s.disk (sb.logstart + i) := h.cached.bread (h.clean_log hi)

/-- Outside the header a block is the same in the cache and on the disk. -/
theorem bread_of_notMem (h : OnDisk sb s) (hb : b ∉ s.lh) : s.bread b = s.disk b := by
  apply h.cached.bread
  rw [← Bool.not_eq_true]
  exact fun hd => hb (h.of_pending hd)

/-- With an empty header in memory and on the disk, nothing is left to write. -/
theorem settled_of_nil (h : OnDisk sb s) (hlh : s.lh = []) (hhead : Fs.head sb s.disk = []) :
    Settled sb s := by
  intro b _
  rw [replay_of_nil hhead, h.bread_of_notMem (by simp [hlh])]

end OnDisk

end OsLabs.Fs
