import OsLabs.Files.Cache

/-!
# Operations on inodes

The operations of the kernel on inodes through the inode cache, each with its inode locked from its
start to its end.

* `View` is what the users see of the state: the files, and which inodes are open;
* `Op.run` is the code, and `Op.spec` what it does to the view;
* `Op.run_spec`: an operation that returns does what `Op.spec` says, and one that panics does so for
  a reason in `Op.Stop`.
-/

namespace OsLabs.Files

open Bytes StateError

variable [sb : Superblock]

/-! ## The code -/

inductive Op
  | ialloc (type : ℕ)
  | iget (inum : ℕ)
  | idup (ip : Fin NINODE)
  | iset (ip : Fin NINODE) (major minor nlink : ℕ)
  | iput (ip : Fin NINODE)
  | readi (devsw : ℕ → Option (ℕ → ℤ × List UInt8)) (ip : Fin NINODE) (off n : ℕ)
  | writei (devsw : ℕ → Option (List UInt8 → ℤ)) (ip : Fin NINODE) (off : ℕ) (src : List UInt8)

/-- What an operation returns. -/
inductive Res
  | none
  | inode (ip : Fin NINODE)
  | read (r : ℤ × List UInt8)
  | written (r : ℤ)

def Op.run : Op → FsM Res
  | .ialloc type => do return .inode (← Files.ialloc type)
  | .iget inum => do return .inode (← Files.iget inum)
  | .idup ip => do return .inode (← Files.idup ip)
  | .iset ip major minor nlink => do
    Files.iset ip major minor nlink
    return .none
  | .iput ip => do
    Files.iput ip
    return .none
  | .readi devsw ip off n => do
    ilock ip
    let r ← onInode ip fun _ d => Files.readi devsw d off n
    return .read r
  | .writei devsw ip off src => do
    ilock ip
    let r ← onInode ip fun inum d => Files.writei devsw inum d off src
    return .written r

/-! ## What users see -/

/-- The files, and the entries of the inode cache without their copies. -/
structure View where
  file : ℕ → File
  handle : Fin NINODE → Handle

def State.view (s : State) : View := ⟨files s.disk, fun ip => (s.icache ip).toHandle⟩

namespace View

def setFile (V : View) (i : ℕ) (f : File) : View := { V with file := Function.update V.file i f }

def setHandle (V : View) (ip : Fin NINODE) (p : Handle) : View :=
  { V with handle := Function.update V.handle ip p }

/-- One more reference to inode `i`, whose entry is the one it has, or else the first free one. -/
def iget (V : View) (i : ℕ) : Option (Res × View) :=
  match (List.finRange NINODE).find? fun ip => (V.handle ip).Hit i with
  | some ip => some (.inode ip, V.setHandle ip { V.handle ip with ref := (V.handle ip).ref + 1 })
  | none => ((List.finRange NINODE).find? fun ip => (V.handle ip).ref = 0).map fun ip =>
    (.inode ip, V.setHandle ip { inum := i, ref := 1, valid := false })

/-- The inode of an entry. -/
def inum (V : View) (ip : Fin NINODE) : ℕ := (V.handle ip).inum

def locked (V : View) (ip : Fin NINODE) : View :=
  V.setHandle ip { V.handle ip with valid := true }

/-- Only an inode in use can be locked, through a reference to it. -/
def ilock (V : View) (ip : Fin NINODE) : Option View :=
  if (V.handle ip).ref = 0 ∨ (V.file (V.inum ip)).type = 0 then none else some (V.locked ip)

end View

/-- What an operation returns and what it does to the files, if it can be done. -/
def Op.spec (V : View) : Op → Option (Res × View)
  | .ialloc type => do
    let i ← inums.find? fun i => (V.file i).type = 0
    (V.setFile i { type := type }).iget i
  | .iget i => V.iget i
  | .idup ip =>
    some (.inode ip, V.setHandle ip { V.handle ip with ref := (V.handle ip).ref + 1 })
  | .iset ip major minor nlink => do
    let V ← V.ilock ip
    return (.none, V.setFile (V.inum ip)
      { V.file (V.inum ip) with major := major, minor := minor, nlink := nlink })
  | .iput ip =>
    if (V.handle ip).valid ∧ (V.file (V.inum ip)).nlink = 0 ∧ (V.handle ip).ref = 1 then
      some (.none, (V.setFile (V.inum ip) { V.file (V.inum ip) with type := 0, data := [] }).setHandle
        ip { V.handle ip with ref := 0, valid := false })
    else some (.none, V.setHandle ip { V.handle ip with ref := (V.handle ip).ref - 1 })
  | .readi devsw ip off n => do
    let V ← V.ilock ip
    return (.read ((V.file (V.inum ip)).read devsw off n), V)
  | .writei devsw ip off src => do
    let V ← V.ilock ip
    let r := (V.file (V.inum ip)).write devsw off src
    return (.written r.1, V.setFile (V.inum ip) r.2)

/-- No count of references overflows. -/
def View.Room (V : View) : Prop := ∀ ip, (V.handle ip).ref < 2 ^ 31 - 1

/-- The arguments have the types of the code, inodes exist, and a reference is there to be copied or
dropped. -/
def Op.Proper (V : View) : Op → Prop
  | .ialloc type => type < 256 ^ 2 ∧ V.Room
  | .iget inum => inum < sb.ninodes ∧ V.Room
  | .idup ip => 0 < (V.handle ip).ref ∧ V.Room
  | .iset _ major minor nlink => major < 256 ^ 2 ∧ minor < 256 ^ 2 ∧ nlink < 256 ^ 2
  | .iput ip => 0 < (V.handle ip).ref
  | .readi _ _ off n => off < 2 ^ 32 ∧ n < 2 ^ 32
  | .writei _ _ off src => off < 2 ^ 32 ∧ src.length < 2 ^ 32

/-- The blocks of the bitmap. -/
def mapBlocks : List ℕ := List.range' sb.bmapstart (sb.size / BPB + 1)

/-- A bound on the number of blocks that an operation logs: the bitmap, the inode, the indirect
block, and the blocks that bytes are written to. -/
def Op.budget : Op → ℕ
  | .ialloc _ => 1
  | .iget _ => 0
  | .idup _ => 0
  | .iset _ _ _ _ => 1
  | .iput _ => mapBlocks.length + 1
  | .readi _ _ _ _ => 0
  | .writei _ _ _ src => mapBlocks.length + 2 + (src.length / BSIZE + 2)

/-- `ilock` panics with `e`: there is no reference to the inode, or it is free. -/
def View.NoLock (V : View) (ip : Fin NINODE) (e : Panic) : Prop :=
  e = .ilock ∧ (V.handle ip).ref = 0 ∨ e = .ilockType ∧ (V.file (V.inum ip)).type = 0

/-- `iget` panics with `e`: all entries are in use. -/
def View.NoEntry (V : View) (e : Panic) : Prop := e = .iget ∧ ∀ ip, (V.handle ip).ref ≠ 0

/-- Why an operation that starts with the view `V` panics with `e` in a state with the disk `t`. -/
def Op.Stop (V : View) (e : Panic) (t : Disk) : Op → Prop
  | .ialloc _ => e = .ialloc ∧ (∀ i ∈ inums, (V.file i).type ≠ 0) ∨ V.NoEntry e ∨ t.NoLog e
  | .iget _ => V.NoEntry e
  | .idup _ => False
  | .iset ip _ _ _ => V.NoLock ip e ∨ t.NoLog e
  | .iput _ => t.NoLog e
  | .readi _ ip _ _ => V.NoLock ip e
  | .writei _ ip _ _ => V.NoLock ip e ∨ t.NoLog e ∨ e = .balloc ∧ Full t

/-- An operation has returned `r`. -/
structure Op.Ran (op : Op) (s : State) (r : Res) (s' : State) : Prop where
  ok : s'.Ok
  spec : op.spec s.view = some (r, s'.view)
  logs : ∃ l : List ℕ, l.length ≤ op.budget ∧ Logs s.disk s'.disk (· ∈ l)

/-- An operation has panicked. -/
structure Op.Halted (op : Op) (s : State) (e : Panic) (s' : State) : Prop where
  stop : op.Stop s.view e s'.disk
  logs : ∃ l : List ℕ, l.length ≤ op.budget ∧ Logs s.disk s'.disk (· ∈ l)

/-! ## One operation -/

section Step

variable {s s' : State} {t : Disk} {d : Dinode} {op : Op} {ip : Fin NINODE} {inum : ℕ} {r : Res}

omit sb in
theorem View.inum_locked (V : View) (ip : Fin NINODE) : (V.locked ip).inum ip = V.inum ip := by
  unfold View.inum View.locked View.setHandle
  dsimp only
  rw [Function.update_self]

omit sb in
theorem View.ilock_bind {β : Type} {V : View} {f : View → Option β} (h0 : 0 < (V.handle ip).ref)
    (ht : (V.file (V.inum ip)).type ≠ 0) : (V.ilock ip >>= f) = f (V.locked ip) := by
  unfold View.ilock
  rw [if_neg fun h => h.elim (Nat.ne_of_gt h0) ht]
  rfl

theorem view_setInode (s : State) (ip : Fin NINODE) (p : Inode) :
    (s.setInode ip p).view = s.view.setHandle ip p.toHandle := by
  unfold State.view State.setInode View.setHandle
  congr 1
  funext jp
  dsimp only
  rcases eq_or_ne jp ip with rfl | hjp
  · rw [Function.update_self, Function.update_self]
  · rw [Function.update_of_ne hjp, Function.update_of_ne hjp]

/-- The disk is left alone. -/
theorem Op.Ran.of_disk (hd : s'.disk = s.disk) (h : s.Ok) (hc : Cached (dinode s.disk) s'.icache)
    (hspec : op.spec s.view = some (r, s'.view)) : op.Ran s r s' where
  ok := ⟨by rw [hd]; exact h.disk, by rw [hd]; exact hc⟩
  spec := hspec
  logs := ⟨[], Nat.zero_le _, by rw [hd]; exact .refl _⟩

theorem mem_mapBlocks {c : ℕ} : c ∈ mapBlocks ↔ Map c := List.mem_range'_1

/-- One block is enough for the bitmap. -/
theorem length_mapBlocks (h : sb.size < BPB) : mapBlocks.length = 1 := by
  unfold mapBlocks
  rw [List.length_range', Nat.div_eq_of_lt h]

theorem iget_spec (h : Cached (dinode s.disk) s.icache) (hin : inum < sb.ninodes) :
    wp (iget inum)
      (fun ip s' => s'.disk = s.disk ∧ Cached (dinode s.disk) s'.icache ∧
        s.view.iget inum = some (.inode ip, s'.view))
      (fun e s' => s'.disk = s.disk ∧ s.view.NoEntry e) s := by
  refine wp_mono igetLoop_spec (fun ip s' hs => ?_) fun e s' he => ?_
  · rcases hs with ⟨hfind, rfl⟩ | ⟨hnone, hfind, rfl⟩
    · have hit : (s.icache ip).Hit inum := of_decide_eq_true
        (List.find?_some (p := fun ip => decide ((s.icache ip).Hit inum)) hfind)
      have hgood := h.good ip hit.1
      refine ⟨rfl, h.set_same hit.1 rfl fun _ => ⟨hgood.inum, hgood.copy⟩, ?_⟩
      unfold View.iget State.addRef
      rw [view_setInode]
      unfold State.view
      dsimp only
      rw [hfind]
    · refine ⟨rfl, h.set (fun _ => ⟨hin, fun hv => absurd hv Bool.false_ne_true⟩)
        fun _ jp _ hj e => ?_, ?_⟩
      · have hmiss := List.find?_eq_none.mp hnone jp (List.mem_finRange jp)
        exact hmiss (decide_eq_true (p := (s.icache jp).Hit inum) ⟨hj, e⟩)
      · unfold View.iget State.take
        rw [view_setInode]
        unfold State.view
        dsimp only
        rw [Option.none_or] at hfind
        rw [hnone, hfind]
        rfl
  · obtain ⟨rfl, rfl, hnone⟩ := he
    rw [Option.none_or] at hnone
    refine ⟨rfl, rfl, fun ip h0 => ?_⟩
    have hused := List.find?_eq_none.mp hnone ip (List.mem_finRange ip)
    exact hused (decide_eq_true h0)

theorem iget_ran (h : s.Ok) (hop : (Op.iget inum).Proper s.view) :
    wp (Op.run (.iget inum)) (Op.Ran (.iget inum) s) (Op.Halted (.iget inum) s) s := by
  unfold Op.run
  simp only [wp_bind, wp_pure]
  refine wp_mono (iget_spec h.cached hop.1) (fun ip s' hs => ?_) fun e s' he => ?_
  · obtain ⟨hd, hc, hview⟩ := hs
    exact .of_disk hd h hc hview
  · exact ⟨he.2, [], Nat.zero_le _, by rw [he.1]; exact .refl _⟩

theorem idup_ran (h : s.Ok) (hop : (Op.idup ip).Proper s.view) :
    wp (Op.run (.idup ip)) (Op.Ran (.idup ip) s) (Op.Halted (.idup ip) s) s := by
  have hgood := h.cached.good ip hop.1
  unfold Op.run idup
  simp only [wp_bind, wp_modify, wp_pure]
  refine .of_disk rfl h (h.cached.set_same hop.1 rfl fun _ => ⟨hgood.inum, hgood.copy⟩) ?_
  unfold Op.spec State.addRef
  rw [view_setInode]
  rfl

/-- The cache has no copy of a free inode. -/
theorem State.Ok.ne_of_free (h : s.Ok) {i : ℕ} (h0 : (dinode s.disk i).type = 0)
    (hr : 0 < (s.icache ip).ref) (hv : (s.icache ip).valid) : (s.icache ip).inum ≠ i := fun e =>
  ((h.cached.good ip hr).copy hv).2 (by rw [e, h0])

theorem ialloc_ran {type : ℕ} (h : s.Ok) (hop : (Op.ialloc type).Proper s.view) :
    wp (Op.run (.ialloc type)) (Op.Ran (.ialloc type) s) (Op.Halted (.ialloc type) s) s := by
  unfold Op.run ialloc
  simp only [wp_bind, wp_pure, wp_onDisk]
  refine wp_mono (iallocLoop_spec fun i => lt_of_mem_inums) (fun i t hi => ?_) fun e t he => ?_
  · obtain ⟨hfind, rfl⟩ := hi
    have h0 : (dinode s.disk i).type = 0 :=
      of_decide_eq_true (List.find?_some (p := fun i => decide ((files s.disk i).type = 0)) hfind)
    have hin := lt_of_mem_inums (List.mem_of_find?_eq_some hfind)
    have hfits : Dinode.Fits { type := type } := ⟨hop.1, Nat.two_pow_pos 16, Nat.two_pow_pos 16,
      Nat.two_pow_pos 16, Nat.two_pow_pos 32, fun _ => Nat.two_pow_pos 32, fun _ _ => rfl⟩
    obtain ⟨hu, hd, -⟩ := h.disk.iset hin hfits (h.disk.addrs_free h0).symm (h.disk.free i h0).symm
    obtain ⟨hc, hfiles⟩ := h.disk.updated hu hd fun _ => rfl
    have hcached := h.cached.disk (fun ip => h.ne_of_free h0) fun j => hu.dinode_ne
    have hlogs : Logs s.disk (s.disk.iupdate i { type := type }) (· ∈ [IBLOCK i]) :=
      .log _ List.mem_cons_self
    refine wp_mono (iget_spec (s := { s with disk := s.disk.iupdate i { type := type } }) hcached hin)
      (fun ip s' hs => ?_) fun e s' he =>
        ⟨Or.inr (Or.inl he.2), [IBLOCK i], Nat.le_refl 1, ?_⟩
    · obtain ⟨hdisk, hcached', hview⟩ := hs
      refine ⟨⟨?_, ?_⟩, ?_, [IBLOCK i], Nat.le_refl 1, ?_⟩
      · rw [hdisk]
        exact hc
      · rw [hdisk]
        exact hcached'
      · unfold Op.spec
        rw [← hview]
        unfold State.view
        dsimp only
        rw [hfind, hfiles]
        rfl
      · rw [hdisk]
        exact hlogs
    · rw [he.1]
      exact hlogs
  · rcases he with ⟨rfl, rfl, hused⟩ | ⟨hlogs, hno⟩
    · exact ⟨Or.inl ⟨rfl, hused⟩, [], Nat.zero_le _, .refl _⟩
    · exact ⟨Or.inr (Or.inr hno), [], Nat.zero_le _, hlogs.mono fun _ hc => hc.elim⟩

/-! ## Locked inodes -/

/-- An operation on the locked inode of the entry `ip` has left the disk `t` and the copy `d`. -/
def State.write (s : State) (ip : Fin NINODE) (t : Disk) (d : Dinode) : State :=
  { s with disk := t }.setInode ip { s.icache ip with valid := true, d := d }

/-- The rule for an operation on a locked inode. -/
theorem wp_locked {α : Type} {f : ℕ → Dinode → DiskM (α × Dinode)} {Q : α → State → Prop}
    {E : Panic → State → Prop} (h : s.Ok)
    (hf : 0 < (s.icache ip).ref → (dinode s.disk (s.icache ip).inum).type ≠ 0 →
      wp (f (s.icache ip).inum (dinode s.disk (s.icache ip).inum))
        (fun r t => Q r.1 (s.write ip t r.2)) (fun e t => ∀ s', s'.disk = t → E e s') s.disk)
    (hE : ∀ e s', s'.disk = s.disk → s.view.NoLock ip e → E e s') :
    wp (ilock ip) (fun _ => wp (onInode ip f) Q E) E s := by
  refine wp_ilock h.cached (fun h0 ht => ?_) (fun h0 => hE _ _ rfl (Or.inl ⟨rfl, h0⟩))
    fun ht => hE _ _ rfl (Or.inr ⟨rfl, ht⟩)
  have hlock : (s.lock ip).icache ip =
      { s.icache ip with valid := true, d := dinode s.disk (s.icache ip).inum } :=
    icache_setInode s ip _
  unfold onInode
  simp only [wp_bind, wp_get, wp_onDisk, wp_modify, wp_pure, hlock]
  refine wp_mono (hf h0 ht) (fun r t hr => ?_) fun e t he => he _ rfl
  have hwrite : State.setInode { s.lock ip with disk := t } ip
      { s.icache ip with valid := true, d := r.2 } = s.write ip t r.2 :=
    setInode_setInode { s with disk := t } ip _ _
  rwa [hwrite]

/-- A locked inode has changed. -/
theorem State.Ok.write (h : s.Ok) (h0 : 0 < (s.icache ip).ref)
    (hu : Updated s.disk t (s.icache ip).inum d) (hd : Dense t d d.size) (ht : d.type ≠ 0) :
    (s.write ip t d).Ok ∧
      (s.write ip t d).view = (s.view.locked ip).setFile (s.view.inum ip) (file t d) := by
  obtain ⟨hc, hfiles⟩ := h.disk.updated hu hd fun e => absurd e ht
  refine ⟨⟨hc, h.cached.write h0 rfl (fun j => hu.dinode_ne) fun _ =>
    ⟨(h.cached.good ip h0).inum, fun _ => ⟨?_, ?_⟩⟩⟩, ?_⟩
  · exact hu.dinode_self.symm
  · have hself := hu.dinode_self
    rwa [← hself] at ht
  · unfold State.write
    rw [view_setInode]
    unfold State.view
    rw [hfiles]
    rfl

theorem iset_ran {major minor nlink : ℕ} (h : s.Ok)
    (hop : (Op.iset ip major minor nlink).Proper s.view) :
    wp (Op.run (.iset ip major minor nlink)) (Op.Ran (.iset ip major minor nlink) s)
      (Op.Halted (.iset ip major minor nlink) s) s := by
  obtain ⟨hmajor, hminor, hnlink⟩ := hop
  unfold Op.run iset
  simp only [wp_bind, wp_pure]
  refine wp_locked h (fun h0 ht => ?_) fun e s' hd he =>
    ⟨Or.inl he, [], Nat.zero_le _, by rw [hd]; exact .refl _⟩
  have hin := (h.cached.good ip h0).inum
  have hfits := h.disk.sound.fits (s.icache ip).inum
  set d : Dinode := { dinode s.disk (s.icache ip).inum with
    major := major, minor := minor, nlink := nlink }
  have hd : d.Fits := ⟨hfits.type, hmajor, hminor, hnlink, hfits.size, hfits.addrs, hfits.rest⟩
  obtain ⟨hu, hdense, hcontent⟩ := h.disk.iset hin hd rfl rfl
  obtain ⟨hok, hview⟩ := h.write h0 hu hdense ht
  simp only [wp_bind, wp_pure]
  refine wp_iupdate ⟨hok, ?_, [_], Nat.le_refl 1, .log _ List.mem_cons_self⟩ fun e he s' hs =>
    ⟨Or.inr (hs ▸ he), [], Nat.zero_le _, by rw [hs]; exact .refl _⟩
  refine (View.ilock_bind h0 ht).trans ?_
  rw [hview, View.inum_locked]
  unfold file
  rw [hcontent]
  rfl

theorem readi_ran {devsw : ℕ → Option (ℕ → ℤ × List UInt8)} {off n : ℕ} (h : s.Ok)
    (hop : (Op.readi devsw ip off n).Proper s.view) :
    wp (Op.run (.readi devsw ip off n)) (Op.Ran (.readi devsw ip off n) s)
      (Op.Halted (.readi devsw ip off n) s) s := by
  obtain ⟨hoff, hn⟩ := hop
  unfold Op.run
  simp only [wp_bind, wp_pure]
  refine wp_locked h (fun h0 ht => ?_) fun e s' hd he =>
    ⟨he, [], Nat.zero_le _, by rw [hd]; exact .refl _⟩
  refine wp_mono (readi_spec h.disk hoff hn) (fun r t hr => ?_) fun _ _ he => he.elim
  obtain ⟨rfl, rfl⟩ := hr
  refine .of_disk rfl h (h.cached.lock h0 ht) ((View.ilock_bind h0 ht).trans ?_)
  unfold State.write
  rw [view_setInode, View.inum_locked]
  rfl

theorem writei_ran {devsw : ℕ → Option (List UInt8 → ℤ)} {off : ℕ} {src : List UInt8}
    (h : s.Ok) (hop : (Op.writei devsw ip off src).Proper s.view) :
    wp (Op.run (.writei devsw ip off src)) (Op.Ran (.writei devsw ip off src) s)
      (Op.Halted (.writei devsw ip off src) s) s := by
  obtain ⟨hoff, hsrc⟩ := hop
  unfold Op.run
  simp only [wp_bind, wp_pure]
  refine wp_locked h (fun h0 ht => ?_) fun e s' hd he =>
    ⟨Or.inl he, [], Nat.zero_le _, by rw [hd]; exact .refl _⟩
  refine wp_mono (writei_spec h.disk (h.cached.good ip h0).inum hoff hsrc) (fun r t hr => ?_)
    fun e t he s' hs => ?_
  · have hret := congrArg Prod.snd hr.ret
    have htype : r.2.type = (dinode s.disk (s.icache ip).inum).type :=
      (congrArg File.type hret).trans (type_write devsw _ _ _)
    obtain ⟨hok, hview⟩ := h.write h0 hr.updated hr.dense (by rwa [htype])
    refine ⟨hok, (View.ilock_bind h0 ht).trans ?_, mapBlocks ++
      [IBLOCK (s.icache ip).inum, r.2.addrs NDIRECT] ++
      (List.range' (off / BSIZE) (src.length / BSIZE + 2)).map (blockAddr t r.2), ?_, ?_⟩
    · rw [hview, View.inum_locked]
      change some (Res.written ((files s.disk (s.icache ip).inum).write devsw off src).1,
        (s.view.locked ip).setFile (s.view.inum ip)
          ((files s.disk (s.icache ip).inum).write devsw off src).2) = _
      rw [← hr.ret]
    · rw [List.length_append, List.length_append, List.length_map, List.length_range']
      exact Nat.le_refl _
    · refine hr.logs.mono fun c hc => ?_
      rw [List.mem_append, List.mem_append, mem_mapBlocks]
      rcases hc with hc | rfl | rfl | ⟨n, hn, hlt, rfl⟩
      · exact Or.inl (Or.inl hc)
      · exact Or.inl (Or.inr List.mem_cons_self)
      · exact Or.inl (Or.inr (List.mem_cons_of_mem _ List.mem_cons_self))
      · refine Or.inr (List.mem_map_of_mem (List.mem_range'_1.mpr ⟨hn, ?_⟩))
        unfold BSIZE at *
        omega
  · obtain ⟨a, l, -, hl, hlogs, hcause⟩ := he
    refine ⟨Or.inr (hs ▸ hcause), mapBlocks ++ a :: l, ?_, ?_⟩
    · have hb : Op.budget (.writei devsw ip off src) =
          mapBlocks.length + 2 + (src.length / BSIZE + 2) := rfl
      rw [List.length_append, List.length_cons, hb]
      omega
    · rw [hs]
      refine hlogs.mono fun c hc => ?_
      rw [List.mem_append, mem_mapBlocks, List.mem_cons]
      exact hc

theorem iput_ran (h : s.Ok) (h0 : 0 < (s.icache ip).ref) :
    wp (Op.run (.iput ip)) (Op.Ran (.iput ip) s) (Op.Halted (.iput ip) s) s := by
  have hgood := h.cached.good ip h0
  -- a reference less, and nothing else
  have hdrop : ¬((s.icache ip).valid ∧ (files s.disk (s.icache ip).inum).nlink = 0 ∧
      (s.icache ip).ref = 1) → Op.Ran (.iput ip) s .none
        (s.setInode ip { s.icache ip with ref := (s.icache ip).ref - 1 }) := fun hkeep => by
    refine .of_disk rfl h (h.cached.set_same h0 rfl fun _ => ⟨hgood.inum, hgood.copy⟩) ?_
    rw [view_setInode]
    exact if_neg hkeep
  unfold Op.run iput ifree
  simp only [wp_bind, wp_get, wp_pure, wp_modify]
  split
  · rename_i hfree
    obtain ⟨hd, ht⟩ := hgood.copy hfree.1
    have hlink : (files s.disk (s.icache ip).inum).nlink = 0 := by
      rw [← hfree.2, hd]
      rfl
    split
    · rename_i h1
      unfold onInode
      simp only [wp_bind, wp_get, wp_onDisk, wp_pure, wp_modify, hd, icache_setInode,
        setInode_setInode]
      refine wp_mono (itrunc_spec h.disk.sound hgood.inum) (fun d t hd => ?_) fun e t he =>
        ⟨he.2, mapBlocks, Nat.le_add_right _ _, he.1.mono fun c hc => mem_mapBlocks.mpr hc⟩
      obtain ⟨rfl, hu, hlogs⟩ := hd
      have hlogs' : Logs s.disk t (· ∈ mapBlocks ++ [IBLOCK (s.icache ip).inum]) :=
        hlogs.mono fun c hc => by
          rw [List.mem_append, mem_mapBlocks, List.mem_singleton]
          exact hc
      have hlen : (mapBlocks ++ [IBLOCK (s.icache ip).inum]).length ≤ Op.budget (.iput ip) := by
        rw [List.length_append]
        exact Nat.le_refl _
      obtain ⟨hc, -⟩ := h.disk.updated hu (dense_truncated t _) fun _ => rfl
      have hself := hu.dinode_self
      have hfits := hc.sound.fits (s.icache ip).inum
      set d : Dinode := { (dinode s.disk (s.icache ip).inum).truncated with type := 0 } with hd'
      have hd : d.Fits := by
        rw [hself] at hfits
        exact ⟨Nat.two_pow_pos 16, hfits.major, hfits.minor, hfits.nlink, hfits.size, hfits.addrs,
          hfits.rest⟩
      obtain ⟨hu', hdense, -⟩ := hc.iset hgood.inum hd (by rw [hself]) (by rw [hself])
      have hu'' := hu.trans hu'
      obtain ⟨hc', hfiles⟩ := h.disk.updated hu'' hdense fun _ => rfl
      refine wp_iupdate ⟨⟨hc', ?_⟩, ?_, _, hlen, ?_⟩ fun e he =>
        ⟨he, _, hlen, hlogs'⟩
      · refine h.cached.write h0 rfl (fun j => hu''.dinode_ne) fun hpos => absurd hpos ?_
        dsimp only
        omega
      · refine (if_pos ⟨hfree.1, hlink, h1⟩).trans ?_
        rw [view_setInode]
        unfold State.view
        dsimp only
        rw [hfiles, h1]
        rfl
      · exact hlogs'.trans (.log _ (List.mem_append_right _ List.mem_cons_self)) fun _ hc => hc
    · rename_i h1
      exact hdrop fun hv => h1 hv.2.2
  · rename_i hfree
    refine hdrop fun hv => hfree ⟨hv.1, ?_⟩
    rw [(hgood.copy hv.1).1]
    exact hv.2.1

/-- An operation does what `Op.spec` says, or panics for a reason in `Op.Stop`. -/
theorem Op.run_spec (h : s.Ok) (hop : op.Proper s.view) :
    wp op.run (op.Ran s) (op.Halted s) s := by
  cases op with
  | ialloc type => exact ialloc_ran h hop
  | iget inum => exact iget_ran h hop
  | idup ip => exact idup_ran h hop
  | iset ip major minor nlink => exact iset_ran h hop
  | iput ip => exact iput_ran h hop
  | readi devsw ip off n => exact readi_ran h hop
  | writei devsw ip off src => exact writei_ran h hop

end Step

end OsLabs.Files
