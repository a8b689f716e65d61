import OsLabs.Files.System

/-!
# Long writes

`filewrite` of `src/xv6-public-master/file.c` cuts a write into parts that are short enough for a
transaction each.

* `begin_op` and `end_op` for a process that is alone, and `filewrite`;
* `File.write_append`: two writes in a row are one;
* `filewriteLoop_spec`: what is written is a part of the bytes from the front on, as by one `writei`;
  and it is all of them, unless the file would become too long.
-/

namespace OsLabs.Files

open StateError Xv6

/-! ## Writes to a list of bytes -/

section Bytes

variable {devsw : ℕ → Option (List UInt8 → ℤ)} {f : File} {off : ℕ} {src a b : List UInt8}

theorem File.write_eq (hdev : f.type ≠ T_DEV) (hoff : off ≤ f.data.length)
    (hfit : off + src.length ≤ MAXFILE * BSIZE) : f.write devsw off src =
      ((src.length : ℤ), { f with data := f.data.take off ++ src ++ f.data.drop (off + src.length) }) := by
  unfold File.write
  rw [if_neg hdev, if_neg (by omega)]

theorem File.write_refused (hdev : f.type ≠ T_DEV)
    (h : f.data.length < off ∨ MAXFILE * BSIZE < off + src.length) :
    f.write devsw off src = (-1, f) := by
  unfold File.write
  rw [if_neg hdev, if_pos h]

theorem File.write_nil (hdev : f.type ≠ T_DEV) : (f.write devsw off []).2 = f := by
  unfold File.write
  rw [if_neg hdev]
  split
  · rfl
  · simp

theorem File.write_fst (hdev : f.type ≠ T_DEV) : (f.write devsw off src).1 =
    if f.data.length < off ∨ MAXFILE * BSIZE < off + src.length then -1 else (src.length : ℤ) := by
  split
  · rename_i hbad
    rw [File.write_refused hdev hbad]
  · rename_i hok
    rw [File.write_eq hdev (by omega) (by omega)]

variable (devsw src) in
theorem File.length_write (hdev : f.type ≠ T_DEV) (hoff : off ≤ f.data.length)
    (hfit : off + src.length ≤ MAXFILE * BSIZE) :
    off + src.length ≤ (f.write devsw off src).2.data.length := by
  rw [File.write_eq hdev hoff hfit]
  simp only [List.length_append, List.length_take, List.length_drop]
  omega

variable (devsw a b) in
/-- Two writes in a row are one. -/
theorem File.write_append (hdev : f.type ≠ T_DEV) (hoff : off ≤ f.data.length)
    (hfit : off + (a.length + b.length) ≤ MAXFILE * BSIZE) :
    ((f.write devsw off a).2.write devsw (off + a.length) b).2 = (f.write devsw off (a ++ b)).2 := by
  have hlen := File.length_write devsw a hdev hoff (by omega)
  have htype : (f.write devsw off a).2.type ≠ T_DEV := by rwa [type_write]
  rw [File.write_eq htype hlen (by omega), File.write_eq hdev hoff (by omega),
    File.write_eq hdev hoff (by rw [List.length_append]; exact hfit)]
  have hP : (f.data.take off ++ a).length = off + a.length := by
    rw [List.length_append, List.length_take, Nat.min_eq_left hoff]
  dsimp only
  rw [← hP, List.take_left, List.drop_length_add_append, List.drop_drop, hP, List.append_assoc _ a,
    List.length_append, Nat.add_assoc off]

end Bytes

variable [sb : Superblock]

/-! ## The code -/

/-- The bytes that one transaction writes at most: `max` of `filewrite`. -/
def writeMax : ℕ := (Fs.MAXOPBLOCKS - 1 - 1 - 2) / 2 * 512

/-- `begin_op` finds room in the log. -/
def Disk.Room (s : Disk) : Prop :=
  s.lh.length + (s.outstanding + 1) * Fs.MAXOPBLOCKS ≤ Fs.LOGSIZE

instance (s : Disk) : Decidable s.Room := inferInstanceAs (Decidable (_ ≤ _))

/-- What `begin_op` does when there is room. -/
def State.begin_op (s : State) : State :=
  { s with disk := { s.disk with outstanding := s.disk.outstanding + 1 } }

/-- `end_op`; the last operation of the transaction commits it. -/
def State.end_op (s : State) : State :=
  { s with disk := { s.disk with
      outstanding := s.disk.outstanding - 1
      lh := if s.disk.outstanding = 1 then [] else s.disk.lh } }

/-- `begin_op` of a process that is alone: without room it sleeps and nobody wakes it. -/
def begin_op : FsM Unit := do
  let s ← get
  if s.disk.Room then set s.begin_op else throw .hang

def end_op : FsM Unit := modify (·.end_op)

/-- The transaction that writes one part. -/
def writePart (devsw : ℕ → Option (List UInt8 → ℤ)) (ip : Fin NINODE) (off : ℕ)
    (src : List UInt8) : FsM ℤ := do
  begin_op
  ilock ip
  let r ← onInode ip fun inum d => writei devsw inum d off src
  end_op
  return r

/-- The loop of `filewrite`: `i` bytes of `src` are written, and `f->off` is `off`. -/
def filewriteLoop (devsw : ℕ → Option (List UInt8 → ℤ)) (ip : Fin NINODE) (src : List UInt8) :
    ℕ → ℕ → ℕ → FsM (ℕ × ℕ)
  | 0, _, _ => throw .hang
  | fuel + 1, off, i => do
    if i < src.length then do
      let n1 := min (src.length - i) writeMax
      let r ← writePart devsw ip off ((src.drop i).take n1)
      let off := if 0 < r then uint (off + r.toNat) else off
      if r < 0 then return (i, off)
      else if r ≠ n1 then throw .filewrite
      else filewriteLoop devsw ip src fuel off (i + n1)
    else return (i, off)

/-- Write to a file that is an inode, at its offset: the value that is returned, and the offset
afterwards. -/
def filewrite (devsw : ℕ → Option (List UInt8 → ℤ)) (writable : Bool) (ip : Fin NINODE) (off : ℕ)
    (src : List UInt8) : FsM (ℤ × ℕ) := do
  if writable = false then return (-1, off)
  else do
    let r ← filewriteLoop devsw ip src (src.length + 1) off 0
    return (if r.1 = src.length then (src.length : ℤ) else -1, r.2)

/-! ## Transactions -/

section Transaction

variable {s s' : State} {op : Op} {e : Panic}

/-- The log is not part of the files. -/
theorem Consistent.of_log {t t' : Disk} (h : Consistent t) (hb : t'.block = t.block) :
    Consistent t' := by
  obtain ⟨block, lh, outstanding⟩ := t
  obtain ⟨block', lh', outstanding'⟩ := t'
  obtain rfl : block' = block := hb
  exact ⟨⟨h.sound.exact, h.sound.reserved, h.sound.fits⟩, fun i => ⟨(h.dense i).block,
    (h.dense i).indirect, (h.dense i).le⟩, h.free⟩

theorem State.Ok.begin_op (h : s.Ok) : s.begin_op.Ok := ⟨h.disk.of_log rfl, h.cached⟩

theorem State.Ok.end_op (h : s.Ok) : s.end_op.Ok := ⟨h.disk.of_log rfl, h.cached⟩

/-- No transaction is under way. -/
def State.Idle (s : State) : Prop := s.disk.outstanding = 0 ∧ s.disk.lh = []

theorem budget_writei {devsw : ℕ → Option (List UInt8 → ℤ)} {ip : Fin NINODE} {off : ℕ}
    {src : List UInt8} (hsize : sb.size < BPB) (hlen : src.length ≤ writeMax) :
    Op.budget (.writei devsw ip off src) ≤ Fs.MAXOPBLOCKS - 1 := by
  have hb : Op.budget (.writei devsw ip off src) =
      mapBlocks.length + 2 + (src.length / BSIZE + 2) := rfl
  rw [hb, length_mapBlocks hsize]
  unfold writeMax Fs.MAXOPBLOCKS at hlen
  unfold BSIZE Fs.MAXOPBLOCKS
  omega

/-- An operation that is alone in its transaction does not fill the log. -/
theorem State.Idle.not_noLog (h : s.Idle) (hnlog : Fs.LOGSIZE ≤ sb.nlog)
    (hop : op.budget ≤ Fs.MAXOPBLOCKS - 1) (hhalt : op.Halted s.begin_op e s') :
    ¬s'.disk.NoLog e := by
  obtain ⟨l, hl, hlogs⟩ := hhalt.logs
  have hlh : s.begin_op.disk.lh = [] := h.2
  have hlen := hlogs.length_le (by rw [hlh]; exact List.nodup_nil)
  have hout : s'.disk.outstanding = s.disk.outstanding + 1 := hlogs.outstanding
  have hmax : Fs.LOGSIZE = Fs.MAXOPBLOCKS * 3 := rfl
  rw [hlh, List.length_nil] at hlen
  unfold Fs.MAXOPBLOCKS at hop hmax
  rintro (⟨-, hbig⟩ | ⟨-, hzero⟩)
  · unfold Disk.TooBig at hbig
    omega
  · omega

end Transaction

/-! ## The loop -/

section Loop

variable {devsw : ℕ → Option (List UInt8 → ℤ)} {s s' : State} {ip : Fin NINODE} {off i m : ℕ}
variable {src : List UInt8}

/-- The same inodes are open. -/
def State.Same (s s' : State) : Prop :=
  ∀ jp, (s'.icache jp).inum = (s.icache jp).inum ∧ (s'.icache jp).ref = (s.icache jp).ref

omit sb in
theorem State.Same.trans {s'' : State} (h : s.Same s') (h' : s'.Same s'') : s.Same s'' := fun jp =>
  ⟨(h' jp).1.trans (h jp).1, (h' jp).2.trans (h jp).2⟩

/-- What a `writei` that returned has done. -/
theorem Op.Ran.writei {r : ℤ} (h : Op.Ran (.writei devsw ip off src) s (.written r) s')
    (h0 : 0 < (s.icache ip).ref) (ht : (files s.disk (s.icache ip).inum).type ≠ 0) :
    r = ((files s.disk (s.icache ip).inum).write devsw off src).1 ∧
      files s'.disk = Function.update (files s.disk) (s.icache ip).inum
        ((files s.disk (s.icache ip).inum).write devsw off src).2 ∧ s.Same s' := by
  have hspec := Option.some.inj ((View.ilock_bind (V := s.view) (f := fun V =>
    some (Res.written ((V.file (V.inum ip)).write devsw off src).1,
      V.setFile (V.inum ip) ((V.file (V.inum ip)).write devsw off src).2)) h0 ht).symm.trans h.spec)
  rw [View.inum_locked] at hspec
  have hview := congrArg Prod.snd hspec
  refine ⟨(Res.written.inj (congrArg Prod.fst hspec)).symm, (congrArg View.file hview).symm,
    fun jp => ?_⟩
  have hhandle : Function.update s.view.handle ip { s.view.handle ip with valid := true } jp =
      (s'.icache jp).toHandle := congrFun (congrArg View.handle hview) jp
  rw [← hhandle]
  rcases eq_or_ne jp ip with rfl | hjp
  · rw [Function.update_self]
    exact ⟨rfl, rfl⟩
  · rw [Function.update_of_ne hjp]
    exact ⟨rfl, rfl⟩

/-- What a part of a long write does. -/
structure Part (devsw : ℕ → Option (List UInt8 → ℤ)) (s s' : State) (ip : Fin NINODE) (off : ℕ)
    (src : List UInt8) (r : ℤ) : Prop where
  ok : s'.Ok
  idle : s'.Idle
  same : s.Same s'
  ret : r = ((files s.disk (s.icache ip).inum).write devsw off src).1
  written : files s'.disk = Function.update (files s.disk) (s.icache ip).inum
    ((files s.disk (s.icache ip).inum).write devsw off src).2

theorem writePart_spec (hsize : sb.size < BPB) (hnlog : Fs.LOGSIZE ≤ sb.nlog) (h : s.Ok)
    (hidle : s.Idle) (hip : 0 < (s.icache ip).ref) (h0 : (files s.disk (s.icache ip).inum).type ≠ 0)
    (hoff : off < 2 ^ 32) (hlen : src.length ≤ writeMax) :
    wp (writePart devsw ip off src) (fun r s' => Part devsw s s' ip off src r)
      (fun e s' => e = .balloc ∧ Full s'.disk) s := by
  have hroom : s.disk.Room := by
    unfold Disk.Room
    rw [hidle.1, hidle.2]
    decide
  have hmax : writeMax < 2 ^ 32 := by decide
  have hran : wp (Op.run (.writei devsw ip off src)) (Op.Ran (.writei devsw ip off src) s.begin_op)
      (Op.Halted (.writei devsw ip off src) s.begin_op) s.begin_op :=
    writei_ran h.begin_op ⟨hoff, Nat.lt_of_le_of_lt hlen hmax⟩
  unfold Op.run at hran
  unfold writePart begin_op
  simp only [wp_bind, wp_get, wp_pure] at hran ⊢
  rw [if_pos hroom, wp_set]
  have hstop : ∀ e s₁, Op.Halted (.writei devsw ip off src) s.begin_op e s₁ →
      e = .balloc ∧ Full s₁.disk := fun e s₁ he => by
    rcases he.stop with (⟨-, hno⟩ | ⟨-, hno⟩) | hno | hfull
    · exact absurd hno (Nat.ne_of_gt hip)
    · exact absurd hno h0
    · exact absurd hno (hidle.not_noLog hnlog (budget_writei hsize hlen) he)
    · exact hfull
  refine wp_mono hran (fun _ s₀ hr₀ => wp_mono hr₀ (fun r s₁ hr => ?_) hstop) hstop
  obtain ⟨hret, hfiles, hsame⟩ := hr.writei hip h0
  obtain ⟨l, -, hlogs⟩ := hr.logs
  have hout : s₁.disk.outstanding = s.disk.outstanding + 1 := hlogs.outstanding
  rw [hidle.1] at hout
  have hidle₁ : s₁.end_op.Idle := ⟨Nat.sub_eq_zero_of_le (Nat.le_of_eq hout), if_pos hout⟩
  exact ⟨hr.ok.end_op, hidle₁, hsame, hret, hfiles⟩

/-- The first `m` bytes of `src` were written at `off`. Where these are not all, one more part would
be refused. -/
structure Wrote (devsw : ℕ → Option (List UInt8 → ℤ)) (s s' : State) (ip : Fin NINODE) (off : ℕ)
    (src : List UInt8) (m : ℕ) : Prop where
  ok : s'.Ok
  idle : s'.Idle
  same : s.Same s'
  le : m ≤ src.length
  fits : 0 < m → off + m ≤ MAXFILE * BSIZE
  written : files s'.disk = Function.update (files s.disk) (s.icache ip).inum
    ((files s.disk (s.icache ip).inum).write devsw off (src.take m)).2
  stop : m < src.length → (files s.disk (s.icache ip).inum).data.length < off ∨
    MAXFILE * BSIZE < off + min src.length (m + writeMax)

/-- Nothing is written. -/
theorem Wrote.zero (h : s'.Ok) (hidle : s'.Idle) (hsame : s.Same s')
    (hf : files s'.disk = files s.disk) (hdev : (files s.disk (s.icache ip).inum).type ≠ T_DEV)
    (hstop : 0 < src.length → (files s.disk (s.icache ip).inum).data.length < off ∨
      MAXFILE * BSIZE < off + min src.length writeMax) :
    Wrote devsw s s' ip off src 0 where
  ok := h
  idle := hidle
  same := hsame
  le := Nat.zero_le _
  fits h0 := absurd h0 (Nat.lt_irrefl 0)
  written := by rw [List.take_zero, File.write_nil hdev, Function.update_eq_self, hf]
  stop := by rwa [Nat.zero_add]

/-- One part is written, and then others. -/
theorem Wrote.part {s₁ : State} {n1 : ℕ} (hdev : (files s.disk (s.icache ip).inum).type ≠ T_DEV)
    (hoff : off ≤ (files s.disk (s.icache ip).inum).data.length) (hn1 : n1 ≤ src.length)
    (hfit : off + n1 ≤ MAXFILE * BSIZE) (hsame : s.Same s₁)
    (hf : files s₁.disk = Function.update (files s.disk) (s.icache ip).inum
      ((files s.disk (s.icache ip).inum).write devsw off (src.take n1)).2)
    (h : Wrote devsw s₁ s' ip (off + n1) (src.drop n1) m) :
    Wrote devsw s s' ip off src (n1 + m) := by
  have hinum := (hsame ip).1
  have hle := h.le
  have hfits := h.fits
  rw [List.length_drop] at hle
  have hc : (src.take n1).length = n1 := List.length_take_of_le hn1
  have hb : ((src.drop n1).take m).length = m := List.length_take_of_le h.le
  have hself : files s₁.disk (s₁.icache ip).inum =
      ((files s.disk (s.icache ip).inum).write devsw off (src.take n1)).2 := by
    rw [hf, hinum, Function.update_self]
  refine ⟨h.ok, h.idle, hsame.trans h.same, by omega, fun _ => by omega, ?_, fun hlt => ?_⟩
  · have happend := File.write_append devsw (src.take n1) ((src.drop n1).take m) hdev hoff
      (by rw [hc, hb]; omega)
    rw [hc] at happend
    rw [h.written, hself, hf, hinum, Function.update_idem, happend, ← List.take_add]
  · have hlen := File.length_write devsw (src.take n1) hdev hoff
      (by rw [hc]; exact hfit)
    rw [hc, ← hself] at hlen
    have hstop := h.stop (by rw [List.length_drop]; omega)
    rw [List.length_drop] at hstop
    omega

theorem filewriteLoop_spec {fuel : ℕ} (hsize : sb.size < BPB) (hnlog : Fs.LOGSIZE ≤ sb.nlog)
    (h : s.Ok) (hidle : s.Idle) (hip : 0 < (s.icache ip).ref)
    (h0 : (files s.disk (s.icache ip).inum).type ≠ 0)
    (hdev : (files s.disk (s.icache ip).inum).type ≠ T_DEV) (hoff : off < 2 ^ 32)
    (hi : i ≤ src.length) (hfuel : src.length < fuel + i) :
    wp (filewriteLoop devsw ip src fuel off i)
      (fun r s' => ∃ m, r = (i + m, off + m) ∧ Wrote devsw s s' ip off (src.drop i) m)
      (fun e s' => e = .balloc ∧ Full s'.disk) s := by
  induction fuel generalizing s off i with
  | zero => omega
  | succ fuel ih =>
    have hmax : 0 < writeMax := by decide
    have hbig : MAXFILE * BSIZE < 2 ^ 32 := by decide
    unfold filewriteLoop
    by_cases hlt : i < src.length
    · rw [if_pos hlt]
      generalize hn : min (src.length - i) writeMax = n1
      have hn1 : n1 ≤ (src.drop i).length := by
        rw [List.length_drop]
        omega
      have hc : ((src.drop i).take n1).length = n1 := List.length_take_of_le hn1
      simp only [wp_bind]
      refine wp_mono (writePart_spec hsize hnlog h hidle hip h0 hoff (by omega)) (fun r s₁ hr => ?_)
        fun _ _ he => he
      have hret := hr.ret
      rw [File.write_fst hdev, hc] at hret
      by_cases hbad : (files s.disk (s.icache ip).inum).data.length < off ∨
          MAXFILE * BSIZE < off + n1
      · have hneg : (-1 : ℤ) < 0 := by decide
        have hpos : ¬(0 : ℤ) < -1 := by decide
        have hkept : files s₁.disk = files s.disk := by
          rw [hr.written, File.write_refused hdev (by rwa [hc]), Function.update_eq_self]
        rw [hret, if_pos hbad]
        simp only [if_pos hneg, if_neg hpos, wp_pure]
        refine ⟨0, rfl, .zero hr.ok hr.idle hr.same hkept hdev fun _ => ?_⟩
        rwa [List.length_drop, hn]
      · have hoff' : uint (off + (n1 : ℤ).toNat) = off + n1 := Nat.mod_eq_of_lt (by omega)
        have htype : (files s₁.disk (s₁.icache ip).inum).type =
            (files s.disk (s.icache ip).inum).type := by
          rw [(hr.same ip).1, hr.written, Function.update_self, type_write]
        have hneg : ¬(n1 : ℤ) < 0 := by omega
        have hpos : (0 : ℤ) < n1 := by omega
        rw [hret, if_neg hbad]
        simp only [if_neg hneg, if_pos hpos, hoff', ne_eq, not_true_eq_false, if_false]
        refine wp_mono (ih hr.ok hr.idle (hip.trans_eq (hr.same ip).2.symm)
          (by rwa [← htype] at h0) (by rwa [← htype] at hdev) (by omega) (by omega) (by omega))
          (fun r₁ s₂ h₂ => ?_) fun _ _ he => he
        obtain ⟨m, rfl, hw⟩ := h₂
        rw [← List.drop_drop] at hw
        refine ⟨n1 + m, ?_, .part hdev (by omega) hn1 (by omega) hr.same hr.written hw⟩
        rw [Nat.add_assoc, Nat.add_assoc]
    · rw [if_neg hlt, wp_pure]
      refine ⟨0, rfl, .zero h hidle (fun _ => ⟨rfl, rfl⟩) rfl hdev fun hpos => ?_⟩
      rw [List.length_drop] at hpos
      omega

end Loop

end OsLabs.Files
