import OsLabs.Fs.Replay

/-!
# The writes of a commit and of a recovery

What each step of `commit` and `recover_from_log` does to the disk that recovery would leave and to
the blocks that `bread` returns (`Advances`):

* the copies that `write_log` makes and the blocks that `install_trans` brings home change neither;
* `write_head` in `commit` is the one write that changes the disk as recovery would leave it, and
  from then on it is what `bread` returns.

`advance_spec` puts the phases together.
-/

namespace OsLabs.Fs

open Xv6 State

variable {sb : Super} {s : State} {b c tail : ℕ} {v : Block}

/-- The step to `s'` keeps the invariant; it changes neither what `bread` returns once the system is
up nor, unless it is the commit, what recovery would leave. -/
structure Advances (sb : Super) (s s' : State) : Prop where
  ok : OnDisk sb s'
  shown : s.up → ∀ b, sb.Home b → s'.bread b = s.bread b
  kept : s.pc ≠ .write_head → ∀ b, sb.Home b → replay sb s'.disk b = replay sb s.disk b
  commit : s.pc = .write_head → ∀ b, sb.Home b → replay sb s'.disk b = s.bread b

theorem Header.log_not_home {lh : List ℕ} (h : Header sb lh) (ht : tail < lh.length) :
    ¬ sb.Home (sb.logstart + tail + 1) :=
  fun hb => h.ne_log hb ht rfl

/-! ## Before the commit -/

theorem advances_write_log (h : OnDisk sb s) (hpc : s.pc = .write_log tail)
    (hb : s.lh[tail]? = some b) :
    Advances sb s { s.write_log sb tail b with pc := .write_log (tail + 1) } := by
  obtain ⟨hup, hcom, hhead, hcopied⟩ : Phase sb s (.write_log tail) := hpc ▸ h.phase
  obtain ⟨ht, -⟩ := List.getElem?_eq_some_iff.mp hb
  have hlog := h.lh.log_not_home ht
  have hne : sb.logstart + tail + 1 ≠ sb.logstart := by omega
  have hbread : ∀ c, sb.Home c →
      Function.update s.bread (sb.logstart + tail + 1) (s.bread b) c = s.bread c := by
    intro c hc
    rw [Function.update_of_ne]
    rintro rfl
    exact hlog hc
  have hhead' : head sb (s.write_log sb tail b).disk = [] := by
    simp only [head, State.write_log, disk_bwrite, disk_load, Function.update_of_ne hne.symm]
    exact hhead
  have hcopied' : Copied sb { s.write_log sb tail b with pc := .write_log (tail + 1) }
      (tail + 1) := by
    intro i c hi hc
    have hhome : sb.Home c := h.lh.home c (List.mem_of_getElem? hc)
    show Function.update s.disk _ _ _ = (s.write_log sb tail b).bread c
    simp only [State.write_log, bread_bwrite, bread_load, hbread c hhome]
    obtain rfl | hne := eq_or_ne i tail
    · obtain rfl : b = c := Option.some_injective _ (hb.symm.trans hc)
      rw [Function.update_self]
    · rw [Function.update_of_ne (by omega)]
      exact hcopied i c (by omega) hc
  refine ⟨⟨((h.cached.load _).load _).bwrite _ _, fun c hc => ?_, h.lh, ?_,
    hup, hcom, hhead', hcopied'⟩, fun _ c hc => ?_, fun _ c hc => ?_, by simp [hpc]⟩
  · obtain rfl | hne := eq_or_ne c (sb.logstart + tail + 1)
    · simp [State.write_log, bwrite] at hc
    · exact h.of_pending (by simpa [State.write_log, bwrite, load, hne] using hc)
  · rw [show head sb _ = [] from hhead']
    exact Header.nil
  · show (s.write_log sb tail b).bread c = _
    simp only [State.write_log, bread_bwrite, bread_load, hbread c hc]
  · exact replay_update_log hhead hc hlog hne

theorem advances_write_log_end (h : OnDisk sb s) (hpc : s.pc = .write_log tail)
    (hb : s.lh[tail]? = none) : Advances sb s { s with pc := .write_head } := by
  obtain ⟨hup, hcom, hhead, hcopied⟩ : Phase sb s (.write_log tail) := hpc ▸ h.phase
  have ht := List.getElem?_eq_none_iff.mp hb
  refine ⟨⟨h.cached, fun c hc => h.of_pending hc, h.lh, h.head, hup, hcom, hhead, ?_⟩,
    fun _ _ _ => rfl, fun _ _ _ => rfl, by simp [hpc]⟩
  exact fun i c hi hc => hcopied i c (hi.trans_le ht) hc

/-! ## The commit -/

/-- The header in memory goes to the disk. -/
theorem head_written (s : State) : head sb (s.write_head sb).disk = s.lh := head_write_head s.lh _

theorem bread_write_head (s : State) (hb : sb.Home b) : (s.write_head sb).bread b = s.bread b := by
  simp only [State.write_head, bread_bwrite, bread_load, Function.update_of_ne hb.ne_logstart]

theorem disk_write_head (s : State) (hb : b ≠ sb.logstart) :
    (s.write_head sb).disk b = s.disk b := by
  simp only [State.write_head, disk_bwrite, disk_load, Function.update_of_ne hb]

theorem dirty_write_head (hb : (s.write_head sb).dirty b = true) : s.dirty b = true := by
  obtain rfl | hne := eq_or_ne b sb.logstart
  · simp [State.write_head, bwrite] at hb
  · simpa [State.write_head, bwrite, load, hne] using hb

theorem advances_write_head (h : OnDisk sb s) (hpc : s.pc = .write_head) :
    Advances sb s { s.write_head sb with pc := .install_trans 0 } := by
  obtain ⟨hup, hcom, -, hcopied⟩ : Phase sb s .write_head := hpc ▸ h.phase
  have hhead' : head sb (s.write_head sb).disk = s.lh := head_written s
  have hreplay : ∀ b, sb.Home b → replay sb (s.write_head sb).disk b = s.bread b := by
    intro b hb
    by_cases hmem : b ∈ s.lh
    · obtain ⟨i, hi⟩ := List.getElem?_of_mem hmem
      obtain ⟨hlt, -⟩ := List.getElem?_eq_some_iff.mp hi
      rw [replay_of_mem (hhead'.symm ▸ h.lh) (hhead'.symm ▸ hi), disk_write_head s (by omega)]
      exact hcopied i b hlt hi
    · rw [replay_of_notMem (hhead'.symm ▸ hmem), disk_write_head s hb.ne_logstart,
        h.bread_of_notMem hmem]
  refine ⟨⟨(h.cached.load _).bwrite _ _, fun c hc => ?_, h.lh, ?_, ?_⟩,
    fun _ b hb => bread_write_head s hb, fun hne => absurd hpc hne, fun _ b hb => hreplay b hb⟩
  · exact h.of_pending (dirty_write_head hc)
  · exact hhead'.symm ▸ h.lh
  · refine ⟨hup.trans hcom.symm, hhead', fun i _ hi => absurd hi (Nat.not_lt_zero i), fun _ b hb => ?_⟩
    exact (hreplay b hb).trans (bread_write_head s hb).symm

/-! ## After the commit -/

theorem advances_install (h : OnDisk sb s) (hpc : s.pc = .install_trans tail)
    (hb : s.lh[tail]? = some b) :
    Advances sb s { s.install sb tail b with pc := .install_trans (tail + 1) } := by
  obtain ⟨hup, hhead, hinst, hset⟩ : Phase sb s (.install_trans tail) := hpc ▸ h.phase
  obtain ⟨ht, hget⟩ := List.getElem?_eq_some_iff.mp hb
  have hmem : b ∈ s.lh := List.mem_of_getElem? hb
  have hlog : s.bread (sb.logstart + tail + 1) = s.disk (sb.logstart + tail + 1) :=
    h.bread_log ht
  have hdisk : (s.install sb tail b).disk
      = Function.update s.disk b (s.disk (sb.logstart + tail + 1)) := by
    simp only [State.install, disk_bwrite, disk_load, hlog]
  have hhead' : head sb (s.install sb tail b).disk = s.lh := by
    rw [hdisk, head, Function.update_of_ne (h.lh.home b hmem).ne_logstart.symm]
    exact hhead
  have hreplay : ∀ c, replay sb (s.install sb tail b).disk c = replay sb s.disk c := by
    intro c
    rw [hdisk]
    exact replay_update_home h.head (hhead.symm ▸ hmem) _
  have hbread : s.up → ∀ c, sb.Home c → (s.install sb tail b).bread c = s.bread c := by
    intro hs c hc
    simp only [State.install, bread_bwrite, bread_load, hlog]
    obtain rfl | hne := eq_or_ne c b
    · rw [Function.update_self, ← hset hs c hc, replay_of_mem h.head (hhead.symm ▸ hb)]
    · rw [Function.update_of_ne hne]
  have hinst' : Installed sb { s.install sb tail b with pc := .install_trans (tail + 1) }
      (tail + 1) := by
    intro i c hi hc
    have hne : sb.logstart + i + 1 ≠ b := by
      obtain ⟨hlt, -⟩ := List.getElem?_eq_some_iff.mp hc
      exact (h.lh.ne_log (h.lh.home b hmem) hlt).symm
    show (s.install sb tail b).disk c = (s.install sb tail b).disk _
    rw [hdisk, Function.update_of_ne hne]
    obtain rfl | hi' := eq_or_ne i tail
    · obtain rfl : b = c := Option.some_injective _ (hb.symm.trans hc)
      rw [Function.update_self]
    · have hcb : c ≠ b := by
        rintro rfl
        obtain ⟨hlt, heq⟩ := List.getElem?_eq_some_iff.mp hc
        exact hi' ((h.lh.nodup.getElem_inj_iff).mp (heq.trans hget.symm))
      rw [Function.update_of_ne hcb]
      exact hinst i c (by omega) hc
  refine ⟨⟨((h.cached.load _).load _).bwrite _ _, fun c hc => ?_, h.lh, ?_,
    hup, hhead', hinst', fun hs c hc => ?_⟩, hbread, fun _ c _ => hreplay c, by simp [hpc]⟩
  · obtain rfl | hne := eq_or_ne c b
    · simp [State.install, bwrite] at hc
    · have hc : s.dirty c = true := by simpa [State.install, bwrite, load, hne] using hc
      have hdrop : c ∈ s.lh.drop tail := by simpa [hpc, pending] using h.dirty c hc
      rw [List.drop_eq_getElem_cons ht, hget] at hdrop
      exact (List.mem_cons.mp hdrop).resolve_left hne
  · exact hhead'.symm ▸ h.lh
  · exact (hreplay c).trans ((hset hs c hc).trans (hbread hs c hc).symm)

theorem advances_install_end (h : OnDisk sb s) (hpc : s.pc = .install_trans tail)
    (hb : s.lh[tail]? = none) : Advances sb s { s with lh := [], pc := .clear_head } := by
  obtain ⟨hup, hhead, hinst, hset⟩ : Phase sb s (.install_trans tail) := hpc ▸ h.phase
  have ht := List.getElem?_eq_none_iff.mp hb
  have hclean : ∀ c, s.dirty c = true → False := by
    intro c hc
    have hdrop : c ∈ s.lh.drop tail := by simpa [hpc, pending] using h.dirty c hc
    simp [List.drop_eq_nil_of_le ht] at hdrop
  refine ⟨⟨h.cached, fun c hc => (hclean c hc).elim, Header.nil, h.head, hup, rfl, hset, ?_⟩,
    fun _ _ _ => rfl, fun _ _ _ => rfl, by simp [hpc]⟩
  intro c _
  by_cases hmem : c ∈ s.lh
  · obtain ⟨i, hi⟩ := List.getElem?_of_mem hmem
    obtain ⟨hlt, -⟩ := List.getElem?_eq_some_iff.mp hi
    exact (replay_of_mem h.head (hhead.symm ▸ hi)).trans (hinst i c (hlt.trans_le ht) hi).symm
  · exact replay_of_notMem (hhead.symm ▸ hmem)

theorem advances_clear_head (h : OnDisk sb s) (hpc : s.pc = .clear_head) :
    Advances sb s { s.write_head sb with pc := .finish } := by
  obtain ⟨hup, hlh, -, hhome⟩ : Phase sb s .clear_head := hpc ▸ h.phase
  have hhead' : head sb (s.write_head sb).disk = [] := (head_written s).trans hlh
  refine ⟨⟨(h.cached.load _).bwrite _ _, fun c hc => ?_, h.lh, ?_, hup, hlh, hhead'⟩,
    fun _ b hb => bread_write_head s hb, fun _ b hb => ?_, by simp [hpc]⟩
  · exact h.of_pending (dirty_write_head hc)
  · exact hhead'.symm ▸ Header.nil
  · rw [hhome b hb]
    exact (congrFun (replay_of_nil hhead') b).trans (disk_write_head s hb.ne_logstart)

/-! ## Recovery -/

theorem advances_read_head (h : OnDisk sb s) (hpc : s.pc = .read_head) :
    Advances sb s { s.read_head sb with pc := .install_trans 0 } := by
  obtain ⟨hup, hcom, hlh⟩ : Phase sb s .read_head := hpc ▸ h.phase
  have hlog : s.bread sb.logstart = s.disk sb.logstart := h.bread_log (Nat.zero_le _)
  have hhead : (s.read_head sb).lh = head sb s.disk := by
    simp only [State.read_head, hlog, head]
  refine ⟨⟨h.cached.load _, fun c hc => ?_, ?_, h.head, ?_⟩, by simp [hup],
    fun _ _ _ => rfl, by simp [hpc]⟩
  · simpa [hlh] using h.of_pending hc
  · exact hhead.symm ▸ h.head
  · exact ⟨hup.trans hcom.symm, hhead.symm, fun i _ hi => absurd hi (Nat.not_lt_zero i),
      fun hs => by simp [State.read_head, load, hup] at hs⟩

/-- No step of `commit` or `recover_from_log` moves a process. -/
theorem advance_call (s : State) : (s.advance sb).call = s.call ∧
    (s.advance sb).outstanding = s.outstanding ∧
    (s.advance sb).committing = s.committing ∧ (s.advance sb).up = s.up := by
  unfold State.advance
  split <;> first | exact ⟨rfl, rfl, rfl, rfl⟩ | (split <;> exact ⟨rfl, rfl, rfl, rfl⟩)

/-- Every step of `commit` and `recover_from_log`. -/
theorem advance_spec (h : OnDisk sb s) : Advances sb s (s.advance sb) := by
  have hsame : s.pc ≠ .write_head → Advances sb s s := fun hpc =>
    ⟨h, fun _ _ _ => rfl, fun _ _ _ => rfl, fun hpc' => absurd hpc' hpc⟩
  unfold State.advance
  split
  case h_1 hpc => exact advances_read_head h hpc
  case h_2 tail hpc =>
    split
    case h_1 b hb => exact advances_write_log h hpc hb
    case h_2 hb => exact advances_write_log_end h hpc hb
  case h_3 hpc => exact advances_write_head h hpc
  case h_4 tail hpc =>
    split
    case h_1 b hb => exact advances_install h hpc hb
    case h_2 hb => exact advances_install_end h hpc hb
  case h_5 hpc => exact advances_clear_head h hpc
  case h_6 hpc => exact hsame (by simp [hpc])
  case h_7 hpc => exact hsame (by simp [hpc])

end OsLabs.Fs
