import OsLabs.Files.Write

/-!
# Runs of operations on inodes

* `formatted`: the disk that `src/xv6-public-master/mkfs.c` makes, before it adds files;
* `files_refine`: a run of operations does to the files what `Op.spec` says;
* `blocks_exact`: no block is lost or used twice, and why operations panic;
* `log_budget`: operations stay within what `begin_op` sets aside for them;
* `filewrite_spec`: a long write is one write, although it takes several transactions.
-/

namespace OsLabs.Files

open StateError

section Runs

variable [sb : Superblock]

/-! ## Runs -/

/-- Operations one after another, with what they return, from `s` to `s'`. Operations that change the
disk are between `begin_op`, which waits for room in the log, and `end_op`. -/
inductive Run (s : State) : List (Op × Res) → State → Prop
  | nil : Run s [] s
  | begin_op {l : List (Op × Res)} {s' : State} (h : Run s l s') (hroom : s'.disk.Room) :
    Run s l s'.begin_op
  | end_op {l : List (Op × Res)} {s' : State} (h : Run s l s') (hpos : 0 < s'.disk.outstanding) :
    Run s l s'.end_op
  | op {l : List (Op × Res)} {s' s'' : State} {op : Op} {r : Res} (h : Run s l s')
      (hop : op.Proper s'.view) (hrun : op.run s' = .ok r s'') : Run s (l ++ [(op, r)]) s''

/-- What operations return one after another, and what they do to the files, if they can be done. -/
def specs (V : View) (ops : List Op) : Option (List Res × View) :=
  ops.foldlM (fun x op => (op.spec x.2).map fun y => (x.1 ++ [y.1], y.2)) ([], V)

variable {s s' s'' : State} {l : List (Op × Res)} {op : Op} {r : Res}

theorem Run.ok (hr : Run s l s') (h : s.Ok) : s'.Ok := by
  induction hr with
  | nil => exact h
  | begin_op _ _ ih => exact ih.begin_op
  | end_op _ _ ih => exact ih.end_op
  | op _ hop hrun ih => exact (of_ok (Op.run_spec ih hop) hrun).ok

theorem Run.lh_nodup (hr : Run s l s') (h : s.Ok) (hlh : s.disk.lh.Nodup) :
    s'.disk.lh.Nodup := by
  induction hr with
  | nil => exact hlh
  | begin_op _ _ ih => exact ih
  | end_op _ _ ih =>
    unfold State.end_op
    dsimp only
    split
    · exact List.nodup_nil
    · exact ih
  | op hr hop hrun ih =>
    obtain ⟨_, _, hlogs⟩ := (of_ok (Op.run_spec (hr.ok h) hop) hrun).logs
    exact hlogs.nodup ih

end Runs

/-! ## A new disk -/

section Formatted

variable [sb : Superblock]

open Bytes

/-- The disk as `balloc` of `mkfs.c` leaves it, if `datastart` blocks are in use. -/
def formatted : Disk where
  block c := if c = sb.bmapstart then (List.range datastart).foldl setBit fun _ => 0 else fun _ => 0

omit sb in
theorem read_zero (o : ℕ) : Dinode.read (fun _ => 0) o = {} := by
  unfold Dinode.read
  simp only [le_zero, ite_self]

theorem dinode_formatted (i : ℕ) : dinode formatted i = {} := by
  unfold dinode
  split
  · rename_i hi
    have hne : IBLOCK i ≠ sb.bmapstart := Nat.ne_of_lt (IBLOCK_lt hi)
    have hblock : formatted.block (IBLOCK i) = fun _ => 0 := if_neg hne
    rw [hblock, read_zero]
  · rfl

theorem used_formatted (h : datastart < BPB) (b : ℕ) : used formatted b = true ↔ b < datastart := by
  unfold used formatted
  dsimp only
  by_cases hb : b < BPB
  · have hB : BBLOCK b = sb.bmapstart := by
      unfold BBLOCK
      rw [Nat.div_eq_of_lt hb, Nat.zero_add]
    rw [if_pos hB, bit_foldl_setBit, bit_zero, Nat.mod_eq_of_lt hb, List.mem_range]
    simp
  · have hB : BBLOCK b ≠ sb.bmapstart := by
      have := Nat.div_pos (Nat.le_of_not_lt hb) (Nat.lt_of_le_of_lt (Nat.zero_le _) h)
      unfold BBLOCK
      omega
    rw [if_neg hB, bit_zero]
    have : ¬b < datastart := by omega
    simpa using this

/-- A new disk is consistent, if `mkfs` finds that one bitmap block is enough. -/
theorem formatted_consistent (h : datastart < BPB) : Consistent formatted where
  sound := by
    have hslot : ∀ x, table formatted (dinode formatted) x = 0 := fun x => by
      unfold table
      rw [dinode_formatted]
      simp [slot]
    refine ⟨⟨fun i j _ hi => absurd (hslot i) hi, fun i hi => absurd (hslot i) hi,
      fun b hb hdata => ?_⟩, fun b hb _ => (used_formatted h b).mpr hb, fun i => ?_⟩
    · rw [used_formatted h]
      exact ⟨fun hlt => absurd hdata.1 (Nat.not_le_of_lt hlt),
        fun ⟨x, hx⟩ => absurd ((hslot x).symm.trans hx).symm hb⟩
    · rw [dinode_formatted]
      exact ⟨Nat.two_pow_pos 16, Nat.two_pow_pos 16, Nat.two_pow_pos 16, Nat.two_pow_pos 16,
        Nat.two_pow_pos 32, fun _ => Nat.two_pow_pos 32, fun _ _ => rfl⟩
  dense i := by
    rw [dinode_formatted]
    exact dense_truncated _ {}
  free i _ := by rw [dinode_formatted]

end Formatted

/-- The disk of `mkfs.c`: `FSSIZE` blocks and `NINODES` inodes, after the log. -/
instance fsImage : Superblock where
  size := 1000
  ninodes := 200
  nlog := Fs.LOGSIZE
  inodestart := 32
  bmapstart := 58
  inodestart_pos := by decide
  inodes_fit := by decide
  size_lt := by decide
  ninodes_lt := by decide

theorem fsImage_consistent : Consistent formatted := by
  apply formatted_consistent
  unfold datastart BPB
  decide

/-- The kernel has booted from the disk of `mkfs.c`. -/
def boot : State := { disk := formatted }

theorem boot_ok : boot.Ok := ⟨fsImage_consistent, .empty _⟩

/-! ## A first run -/

section Space

open Xv6

variable [sb : Superblock] {s s' : Disk} {e : Panic} {n : ℕ}

/-- `log_write` can put `n` more blocks into the header. -/
structure Disk.Space (s : Disk) (n : ℕ) : Prop where
  outstanding : 0 < s.outstanding
  size : s.lh.length + n ≤ Fs.LOGSIZE
  nlog : s.lh.length + n < sb.nlog

theorem Disk.Space.not_noLog (h : s.Space (n + 1)) : ¬s.NoLog e := by
  have h₁ := h.outstanding
  have h₂ := h.size
  have h₃ := h.nlog
  rintro (⟨-, hbig⟩ | ⟨-, hzero⟩)
  · unfold Disk.TooBig at hbig
    omega
  · omega

theorem Disk.Space.log (h : s.Space (n + 1)) (b : ℕ) (v : Bytes.Buf) : (s.log b v).Space n := by
  have h₂ := h.size
  have h₃ := h.nlog
  have hlen : (s.log b v).lh.length ≤ s.lh.length + 1 := by
    unfold Disk.log
    dsimp only
    split
    · exact Nat.le_succ _
    · rw [List.length_append, List.length_singleton]
  exact ⟨h.outstanding, by omega, by omega⟩

/-- A write to the front of an empty file returns, if there is a free block and room in the log. -/
theorem writei_front {devsw : ℕ → Option (List UInt8 → ℤ)} {inum : ℕ} {d : Dinode}
    {src : List UInt8} (hsize : sb.size < BPB) (hdev : d.type ≠ T_DEV) (hd : d.size = 0)
    (ha : d.addrs 0 = 0) (hpos : 0 < src.length) (hlen : src.length ≤ BSIZE)
    (hres : ∀ c < datastart, c < sb.size → used s c = true) (hfree : ¬Full s)
    (hlh : s.lh.Nodup) (hspace : s.Space 4) :
    wp (writei devsw inum d 0 src) (fun r _ => r.1 = src.length) (fun _ _ => False) s := by
  have hfit : src.length < 2 ^ 32 := Nat.lt_of_le_of_lt hlen (by decide)
  have hsum : uint (0 + src.length) = src.length := by
    rw [Nat.zero_add]
    exact Nat.mod_eq_of_lt hfit
  have hmax : ¬MAXFILE * BSIZE < src.length :=
    Nat.not_lt_of_le (hlen.trans (by decide))
  have hbn : 0 / BSIZE < NDIRECT := by decide
  have hzero : 0 / BSIZE = 0 := by decide
  have hmin : min (src.length - 0) (BSIZE - 0 % BSIZE) = src.length := by
    have : 0 % BSIZE = 0 := by decide
    omega
  have hend : ∀ fuel (d : Dinode) off, 0 < fuel →
      writeLoop src fuel d off (0 + src.length) = pure (off, d) := fun fuel d off hfuel => by
    cases fuel with
    | zero => exact absurd hfuel (Nat.lt_irrefl 0)
    | succ fuel =>
      unfold writeLoop
      rw [if_neg (by omega)]
  unfold writei
  rw [if_neg hdev, hsum, hd, if_neg (by omega), if_neg hmax]
  unfold writeLoop
  rw [if_pos hpos]
  unfold bmap
  rw [if_pos hbn, hzero, if_pos ha, hmin]
  simp only [wp_bind, bread, wp_get, wp_pure, hsum, hend _ _ _ hpos]
  refine wp_mono (balloc_spec hres) (fun b s₁ hb => ?_) fun e s₁ he => ?_
  · obtain ⟨-, rfl⟩ := hb
    have hspace₂ : (s.alloc b).Space 2 := (hspace.log _ _).log _ _
    refine wp_log_write ?_ fun e he => hspace₂.not_noLog he
    have hgrow : 0 < src.length ∧ (d.setAddr 0 b).size < src.length := ⟨hpos, hd.trans_lt hpos⟩
    rw [if_pos hgrow]
    simp only [wp_bind, wp_pure]
    exact wp_iupdate trivial fun e he => (hspace₂.log _ _).not_noLog he
  · rcases he with ⟨hlogs, hno⟩ | ⟨-, -, hfull⟩
    · have hlen := (hlogs.mono fun c hc => mem_mapBlocks.mpr hc).length_le hlh
      rw [length_mapBlocks hsize] at hlen
      have hsp : s₁.Space 1 := ⟨by rw [hlogs.outstanding]; exact hspace.outstanding,
        by have := hspace.size; omega, by have := hspace.nlog; omega⟩
      exact hsp.not_noLog hno
    · exact hfree hfull

omit sb in
/-- In a cache without references, the first entry is taken. -/
theorem iget_empty {s : State} {inum : ℕ} (h : ∀ ip, (s.icache ip).ref = 0) :
    iget inum s = .ok 0 (s.take 0 inum) := by
  have hfind : ((List.finRange NINODE).find? fun ip => (s.icache ip).ref = 0) = some 0 := by
    unfold NINODE
    rw [List.finRange_succ]
    exact List.find?_cons_of_pos (decide_eq_true (h 0))
  apply eq_ok_of_wp
  refine wp_mono igetLoop_spec (fun ip s' hs => ?_) fun e s' he => ?_
  · rcases hs with ⟨hit, -⟩ | ⟨-, hfirst, rfl⟩
    · have hused : (s.icache ip).Hit inum := of_decide_eq_true
        (List.find?_some (p := fun ip => decide ((s.icache ip).Hit inum)) hit)
      exact absurd (h ip) (Nat.ne_of_gt hused.1)
    · rw [Option.none_or, hfind] at hfirst
      obtain rfl := Option.some.inj hfirst
      exact ⟨rfl, rfl⟩
  · rw [Option.none_or, hfind] at he
    cases he.2.2

end Space

/-- The state after the first inode was allocated. -/
def started (type : ℕ) : State :=
  State.take { boot with disk := boot.begin_op.disk.iupdate 1 { type := type } } 0 1

/-- The first inode that is allocated is inode 1. -/
theorem run_ialloc (type : ℕ) (h : type < 256 ^ 2) :
    Run boot [(.ialloc type, .inode 0)] (started type) := by
  refine .op (.begin_op .nil (by decide)) ⟨h, fun _ => (by decide : 0 < 2 ^ 31 - 1)⟩ ?_
  have hloop : onDisk (iallocLoop type inums) boot.begin_op =
      .ok 1 { boot with disk := boot.begin_op.disk.iupdate 1 { type := type } } := rfl
  have hialloc : ialloc type boot.begin_op = .ok 0 (started type) :=
    (ok_bind hloop).trans (iget_empty fun _ => rfl)
  exact ok_bind hialloc

theorem dinode_started {type : ℕ} (h : type < 256 ^ 2) :
    dinode (started type).disk 1 = { type := type } := by
  have hfits : Dinode.Fits { type := type } := ⟨h, Nat.two_pow_pos 16, Nat.two_pow_pos 16,
    Nat.two_pow_pos 16, Nat.two_pow_pos 32, fun _ => Nat.two_pow_pos 32, fun _ _ => rfl⟩
  have hd : dinode (boot.begin_op.disk.iupdate 1 { type := type }) =
      Function.update (dinode boot.begin_op.disk) 1 { type := type } :=
    dinode_iupdate (by decide) hfits
  exact (congrFun hd 1).trans (Function.update_self _ _ _)

theorem not_full_started (type : ℕ) : ¬Full (started type).disk := fun h => by
  have hsmall : datastart < BPB := by
    unfold datastart BPB
    decide
  have hkept : used (boot.begin_op.disk.iupdate 1 { type := type }) 500 = used formatted 500 :=
    used_iupdate (by decide) 500
  have hused : used formatted 500 = true := hkept.symm.trans (h 500 (by decide))
  have hlt := (used_formatted hsmall 500).mp hused
  unfold datastart BPB at hlt
  exact absurd hlt (by decide)

/-- Two bytes are written to a new file. -/
theorem run_writei (devsw : ℕ → Option (List UInt8 → ℤ)) : ∃ s',
    Op.run (.writei devsw 0 0 [104, 105]) (started T_FILE) = .ok (.written 2) s' := by
  have hok := (run_ialloc T_FILE (by decide)).ok boot_ok
  have hd : dinode (started T_FILE).disk 1 = { type := T_FILE } := dinode_started (by decide)
  have hsize : fsImage.size < BPB := by
    unfold BPB
    decide
  have hfront : wp (writei devsw 1 { type := T_FILE } 0 [104, 105]) (fun r _ => r.1 = 2)
      (fun _ _ => False) (started T_FILE).disk :=
    writei_front hsize (by decide) rfl rfl (by decide) (by decide) hok.disk.sound.reserved
      (not_full_started T_FILE) (List.nodup_singleton _) ⟨by decide, by decide, by decide⟩
  rw [← hd] at hfront
  have hwp : wp (Op.run (.writei devsw 0 0 [104, 105])) (fun r _ => r = .written 2 ∧ True)
      (fun _ _ => False) (started T_FILE) := by
    unfold Op.run
    simp only [wp_bind, wp_pure]
    refine wp_locked hok (fun _ _ => ?_) fun e s' _ hno => ?_
    · exact wp_mono hfront (fun r t hr => ⟨congrArg Res.written hr, trivial⟩) fun _ _ he => he.elim
    · rcases hno with ⟨-, h0⟩ | ⟨-, h0⟩
      · exact absurd h0 (by decide)
      · exact absurd ((congrArg Dinode.type hd).symm.trans h0) (by decide)
  obtain ⟨s', hrun, -⟩ := ok_of_wp hwp
  exact ⟨s', hrun⟩

/-- A file is made, two bytes are written to it, and read back. -/
theorem run_written (devsw : ℕ → Option (ℕ → ℤ × List UInt8))
    (devsw' : ℕ → Option (List UInt8 → ℤ)) : ∃ s', Run boot [(.ialloc T_FILE, .inode 0),
      (.writei devsw' 0 0 [104, 105], .written 2), (.readi devsw 0 0 10, .read (2, [104, 105]))] s' := by
  have hrun₁ := run_ialloc T_FILE (by decide)
  have hok₁ := hrun₁.ok boot_ok
  have hfile₁ : files (started T_FILE).disk 1 = { type := T_FILE } := by
    unfold files
    rw [dinode_started (by decide)]
    rfl
  have htype₁ : (files (started T_FILE).disk 1).type ≠ 0 := by
    rw [hfile₁]
    decide
  have hop₁ : Op.Proper (started T_FILE).view (.writei devsw' 0 0 [104, 105]) :=
    ⟨by decide, by decide⟩
  obtain ⟨s₂, hw⟩ := run_writei devsw'
  have hran₂ := of_ok (Op.run_spec hok₁ hop₁) hw
  obtain ⟨-, hfiles, hsame⟩ := hran₂.writei (by decide) htype₁
  have hfile₂ : files s₂.disk (s₂.icache 0).inum = { type := T_FILE, data := [104, 105] } := by
    have hself : files s₂.disk 1 = ((files (started T_FILE).disk 1).write devsw' 0 [104, 105]).2 :=
      (congrFun hfiles 1).trans (Function.update_self _ _ _)
    rw [(hsame 0).1]
    refine hself.trans ?_
    rw [hfile₁]
    rfl
  have htype₂ : (files s₂.disk (s₂.icache 0).inum).type ≠ 0 := by
    rw [hfile₂]
    decide
  have href₂ : 0 < (s₂.icache 0).ref := by
    rw [(hsame 0).2]
    decide
  have hop₂ : Op.Proper s₂.view (.readi devsw 0 0 10) := ⟨by decide, by decide⟩
  obtain ⟨r, s₃, hr, hran₃⟩ := wp_ok (wp_mono (Op.run_spec hran₂.ok hop₂) (fun _ _ hr => hr)
    fun e s₃ he => by
      rcases he.stop with ⟨-, h0⟩ | ⟨-, h0⟩
      · exact Nat.ne_of_gt href₂ h0
      · exact htype₂ h0)
  have hres := congrArg Prod.fst (Option.some.inj ((View.ilock_bind (V := s₂.view) (f := fun V =>
    some (Res.read ((V.file (V.inum 0)).read devsw 0 10), V)) href₂ htype₂).symm.trans hran₃.spec))
  rw [View.inum_locked] at hres
  have hread : Res.read ((files s₂.disk (s₂.icache 0).inum).read devsw 0 10) = r := hres
  rw [hfile₂] at hread
  obtain rfl : Res.read (2, [104, 105]) = r := hread
  exact ⟨s₃, (hrun₁.op hop₁ hw).op hop₂ hr⟩

/-! ## Results -/

section Results

variable {l : List (Op × Res)} {r : Res}

/-- Operations on inodes are operations on lists of bytes: each one that returns gives what `Op.spec`
says, and changes the files and the open inodes as it says. -/
theorem files_refine [Superblock] {s s' : State} (h : s.Ok) (hr : Run s l s') :
    specs s.view (l.map Prod.fst) = some (l.map Prod.snd, s'.view) := by
  induction hr with
  | nil => rfl
  | begin_op _ _ ih => exact ih
  | end_op _ _ ih => exact ih
  | op hr hop hrun ih =>
    have hran := of_ok (Op.run_spec (hr.ok h) hop) hrun
    unfold specs at ih ⊢
    rw [List.map_append, List.foldlM_append, ih, List.map_append]
    simp [hran.spec]

theorem files_refine_written : ∃ s',
    Run boot [(.ialloc T_FILE, .inode 0), (.writei (fun _ => none) 0 0 [104, 105], .written 2),
      (.readi (fun _ => none) 0 0 10, .read (2, [104, 105]))] s' ∧
    specs boot.view [.ialloc T_FILE, .writei (fun _ => none) 0 0 [104, 105],
      .readi (fun _ => none) 0 0 10] =
        some ([.inode 0, .written 2, .read (2, [104, 105])], s'.view) := by
  obtain ⟨s', hr⟩ := run_written (fun _ => none) fun _ => none
  exact ⟨s', hr, files_refine boot_ok hr⟩

/-- A data block is marked in the bitmap if and only if one inode refers to it, from one place; and
an operation panics for one of the reasons in `Op.Stop`: never because a block is freed twice or is
out of range, and its loops end. -/
theorem blocks_exact [sb : Superblock] {s s' : State} (h : s.Ok) (hr : Run s l s') :
    (∀ b, datastart ≤ b → b < sb.size → (used s'.disk b = true ↔
      ∃! x : ℕ × ℕ, slot s'.disk (dinode s'.disk x.1) x.2 = b)) ∧
    ∀ op : Op, op.Proper s'.view → ∀ e s'', op.run s' = .error e s'' →
      op.Stop s'.view e s''.disk := by
  have hs' := hr.ok h
  refine ⟨fun b hb hlt => ?_, fun op hop e s'' he => (of_error (Op.run_spec hs' hop) he).stop⟩
  have hdata : Data b := ⟨hb, hlt⟩
  have hexact := hs'.disk.sound.exact
  rw [hexact.held b hdata.ne_zero hdata]
  constructor
  · rintro ⟨x, rfl⟩
    exact ⟨x, rfl, fun y hy => hexact.inj y x hy fun e => hdata.ne_zero (Eq.trans (Eq.symm hy) e)⟩
  · exact fun hx => hx.exists

theorem blocks_exact_written : ∃ s',
    Run boot [(.ialloc T_FILE, .inode 0), (.writei (fun _ => none) 0 0 [104, 105], .written 2),
      (.readi (fun _ => none) 0 0 10, .read (2, [104, 105]))] s' ∧
    (∀ b, datastart ≤ b → b < 1000 → (used s'.disk b = true ↔
      ∃! x : ℕ × ℕ, slot s'.disk (dinode s'.disk x.1) x.2 = b)) ∧
    ∀ op : Op, op.Proper s'.view → ∀ e s'', op.run s' = .error e s'' →
      op.Stop s'.view e s''.disk := by
  obtain ⟨s', hr⟩ := run_written (fun _ => none) fun _ => none
  exact ⟨s', hr, blocks_exact boot_ok hr⟩

/-- With one bitmap block, an operation adds fewer than `MAXOPBLOCKS` blocks to the log, if a write
is no longer than `filewrite` makes it. -/
theorem log_budget [sb : Superblock] {s s' s'' : State} {op : Op} (hsize : sb.size < BPB)
    (h : s.Ok) (hlh : s.disk.lh.Nodup) (hr : Run s l s') (hop : op.Proper s'.view)
    (hlen : ∀ devsw ip off src, op = .writei devsw ip off src → src.length ≤ writeMax)
    (hrun : op.run s' = .ok r s'') :
    s''.disk.lh.length ≤ s'.disk.lh.length + (Fs.MAXOPBLOCKS - 1) := by
  obtain ⟨L, hL, hlogs⟩ := (of_ok (Op.run_spec (hr.ok h) hop) hrun).logs
  have hbudget : op.budget ≤ Fs.MAXOPBLOCKS - 1 := by
    cases op with
    | writei devsw ip off src => exact budget_writei hsize (hlen devsw ip off src rfl)
    | iput ip =>
      have hb : Op.budget (.iput ip) = mapBlocks.length + 1 := rfl
      rw [hb, length_mapBlocks hsize]
      decide
    | ialloc type => exact Nat.le_add_left _ _
    | iset ip major minor nlink => exact Nat.le_add_left _ _
    | iget inum => exact Nat.zero_le _
    | idup ip => exact Nat.zero_le _
    | readi devsw ip off n => exact Nat.zero_le _
  have := hlogs.length_le (hr.lh_nodup h hlh)
  omega

theorem log_budget_writei : ∃ s'',
    Op.run (.writei (fun _ => none) 0 0 [104, 105]) (started T_FILE) = .ok (.written 2) s'' ∧
    s''.disk.lh.length ≤ (started T_FILE).disk.lh.length + (Fs.MAXOPBLOCKS - 1) := by
  obtain ⟨s'', hw⟩ := run_writei fun _ => none
  have hop : Op.Proper (started T_FILE).view (.writei (fun _ => none) 0 0 [104, 105]) :=
    ⟨by decide, by decide⟩
  refine ⟨s'', hw, log_budget (by unfold BPB; decide) boot_ok List.nodup_nil
    (run_ialloc T_FILE (by decide)) hop (fun _ _ _ _ e => ?_) hw⟩
  obtain ⟨-, -, -, rfl⟩ := Op.writei.inj e
  decide

/-- `filewrite` on a regular file writes `m` bytes, as one `writei` would, and moves the offset past
them. It returns their number if they are all, and otherwise -1. With the log that `param.h` asks
for, and nobody else in a transaction, it panics for lack of blocks only, and writes are never
short. -/
theorem filewrite_spec [sb : Superblock] {s : State} {devsw : ℕ → Option (List UInt8 → ℤ)}
    {ip : Fin NINODE} {off : ℕ} {src : List UInt8} (hsize : sb.size < BPB)
    (hnlog : Fs.LOGSIZE ≤ sb.nlog) (h : s.Ok) (hidle : s.Idle) (hip : 0 < (s.icache ip).ref)
    (h0 : (files s.disk (s.icache ip).inum).type ≠ 0)
    (hdev : (files s.disk (s.icache ip).inum).type ≠ T_DEV) (hoff : off < 2 ^ 32) :
    wp (filewrite devsw true ip off src)
      (fun r s' => ∃ m, r = (if m = src.length then (src.length : ℤ) else -1, off + m) ∧
        Wrote devsw s s' ip off src m)
      (fun e s' => e = .balloc ∧ Full s'.disk) s := by
  unfold filewrite
  simp only [Bool.true_eq_false, if_false, wp_bind, wp_pure]
  refine wp_mono (filewriteLoop_spec hsize hnlog h hidle hip h0 hdev hoff (Nat.zero_le _)
    (by omega)) (fun r s' hr => ?_) fun _ _ he => he
  obtain ⟨m, rfl, hw⟩ := hr
  rw [List.drop_zero] at hw
  refine ⟨m, ?_, hw⟩
  rw [Nat.zero_add]

theorem filewrite_spec_file :
    wp (filewrite (fun _ => none) true 0 0 [104, 105])
      (fun r s' => ∃ m, r = (if m = 2 then (2 : ℤ) else -1, 0 + m) ∧
        Wrote (fun _ => none) (started T_FILE).end_op s' 0 0 [104, 105] m)
      (fun e s' => e = .balloc ∧ Full s'.disk) (started T_FILE).end_op := by
  have htype : (files (started T_FILE).end_op.disk 1).type = T_FILE :=
    congrArg Dinode.type (dinode_started (by decide))
  refine filewrite_spec (by unfold BPB; decide) (Nat.le_refl _)
    ((run_ialloc T_FILE (by decide)).ok boot_ok).end_op ⟨rfl, rfl⟩ (by decide) (fun h => ?_)
    (fun h => ?_) (by decide)
  · exact absurd (htype.symm.trans h) (by decide)
  · exact absurd (htype.symm.trans h) (by decide)

end Results

end OsLabs.Files
