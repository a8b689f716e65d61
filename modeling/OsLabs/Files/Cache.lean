import Mathlib.Data.List.FinRange
import OsLabs.Files.Spec

/-!
# The inode cache

The in-memory inodes of `src/xv6-public-master/fs.c`: a table of `NINODE` entries, each for one
inode, with a count of the references to it and, once `ilock` has read it, a copy of the inode.

* `State` is the disk and the table, and a pointer to a `struct inode` the number of its entry;
* `iget`, `idup`, `ialloc`, `ilock`, `iput`, and `onInode` for what is done to a locked inode;
* `Cached`: an inode has one entry, whose copy is the inode on the disk;
* `igetLoop_spec` and `wp_ilock`.

One operation runs at a time: `ilock` does not wait, and `iunlock`, which is left out, finds the lock
held and the entry in use.
-/

namespace OsLabs.Files

open Bytes StateError

variable [sb : Superblock]

/-! ## The code -/

/-- Maximum number of active inodes. -/
def NINODE : ℕ := 50

instance : NeZero NINODE := ⟨by decide⟩

/-- The part of `struct inode` that is not read from the disk. -/
structure Handle where
  inum : ℕ := 0
  ref : ℕ := 0
  valid : Bool := false

/-- `struct inode`. -/
structure Inode extends Handle where
  /-- The copy of the inode on the disk. -/
  d : Dinode := {}

/-- The disk, and `icache.inode`. -/
structure State where
  disk : Disk
  icache : Fin NINODE → Inode := fun _ => {}

abbrev FsM := EStateM Panic State

/-- `*ip = p`. -/
def State.setInode (s : State) (ip : Fin NINODE) (p : Inode) : State :=
  { s with icache := Function.update s.icache ip p }

/-- `ip->ref++`. -/
def State.addRef (s : State) (ip : Fin NINODE) : State :=
  s.setInode ip { s.icache ip with ref := (s.icache ip).ref + 1 }

/-- An unused entry is taken for inode `inum`. -/
def State.take (s : State) (ip : Fin NINODE) (inum : ℕ) : State :=
  s.setInode ip { s.icache ip with inum := inum, ref := 1, valid := false }

def onDisk {α : Type} (m : DiskM α) : FsM α := zoom State.disk (fun t s => { s with disk := t }) m

/-- Run `f` on the number of an inode and its copy, which it may change. -/
def onInode {α : Type} (ip : Fin NINODE) (f : ℕ → Dinode → DiskM (α × Dinode)) : FsM α := do
  let p := (← get).icache ip
  let r ← onDisk (f p.inum p.d)
  modify fun s => s.setInode ip { s.icache ip with d := r.2 }
  return r.1

/-- The loop of `iget` over the cache, with the first empty slot that it has seen. -/
def igetLoop (inum : ℕ) : List (Fin NINODE) → Option (Fin NINODE) → FsM (Fin NINODE)
  | ip :: ips, empty => do
    let p := (← get).icache ip
    if 0 < p.ref ∧ p.inum = inum then do
      modify (·.addRef ip)
      return ip
    else igetLoop inum ips (if empty = none ∧ p.ref = 0 then some ip else empty)
  | [], some ip => do
    modify (·.take ip inum)
    return ip
  | [], none => throw .iget

/-- Find the inode with number `inum`, without reading it from the disk. -/
def iget (inum : ℕ) : FsM (Fin NINODE) := igetLoop inum (List.finRange NINODE) none

/-- Allocate an inode. -/
def ialloc (type : ℕ) : FsM (Fin NINODE) := do
  let inum ← onDisk (iallocLoop type inums)
  iget inum

def idup (ip : Fin NINODE) : FsM (Fin NINODE) := do
  modify (·.addRef ip)
  return ip

/-- Lock an inode, and read it from the disk if necessary. -/
def ilock (ip : Fin NINODE) : FsM Unit := do
  let p := (← get).icache ip
  if p.ref < 1 then throw .ilock
  else if p.valid then return ()
  else do
    let data ← onDisk (bread (IBLOCK p.inum))
    let d := Dinode.read data (dinodeOff p.inum)
    modify (·.setInode ip { p with valid := true, d := d })
    if d.type = 0 then throw .ilockType
    else return ()

/-- The first part of `iput`: an inode without links and without other references is freed, with its
content. -/
def ifree (ip : Fin NINODE) : FsM Unit := do
  let p := (← get).icache ip
  if p.valid ∧ p.d.nlink = 0 then
    if p.ref = 1 then do
      onInode ip fun inum d => do
        let d ← itrunc inum d
        let d := { d with type := 0 }
        iupdate inum d
        return ((), d)
      modify fun s => s.setInode ip { s.icache ip with valid := false }
    else return ()
  else return ()

/-- Drop a reference to an inode. -/
def iput (ip : Fin NINODE) : FsM Unit := do
  ifree ip
  modify fun s => s.setInode ip { s.icache ip with ref := (s.icache ip).ref - 1 }

/-- The device and the number of links are set, as by `create`, `sys_link` and `sys_unlink`. -/
def iset (ip : Fin NINODE) (major minor nlink : ℕ) : FsM Unit := do
  ilock ip
  onInode ip fun inum d => do
    let d := { d with major := major, minor := minor, nlink := nlink }
    iupdate inum d
    return ((), d)

/-! ## The invariant -/

/-- An entry is for an inode that exists, and its copy is that inode. -/
structure Inode.Good (D : ℕ → Dinode) (p : Inode) : Prop where
  inum : p.inum < sb.ninodes
  copy : p.valid → p.d = D p.inum ∧ (D p.inum).type ≠ 0

/-- Entries in use are good, and no two of them are for the same inode. -/
structure Cached (D : ℕ → Dinode) (c : Fin NINODE → Inode) : Prop where
  good : ∀ ip, 0 < (c ip).ref → (c ip).Good D
  unique : ∀ ip jp, 0 < (c ip).ref → 0 < (c jp).ref → (c ip).inum = (c jp).inum → ip = jp

/-- The disk is consistent, and the cache is right about it. -/
structure State.Ok (s : State) : Prop where
  disk : Consistent s.disk
  cached : Cached (dinode s.disk) s.icache

section Cache

variable {D D' : ℕ → Dinode} {c : Fin NINODE → Inode} {s s' : State} {ip jp : Fin NINODE}
variable {p : Inode} {d : Dinode} {i inum : ℕ}

namespace Cached

/-- A new cache. -/
theorem empty (D : ℕ → Dinode) : Cached D fun _ => {} :=
  ⟨fun _ h => absurd h (Nat.lt_irrefl 0), fun _ _ h => absurd h (Nat.lt_irrefl 0)⟩

/-- One entry has changed. -/
theorem set (h : Cached D c) (hp : 0 < p.ref → p.Good D)
    (hne : 0 < p.ref → ∀ jp, jp ≠ ip → 0 < (c jp).ref → (c jp).inum ≠ p.inum) :
    Cached D (Function.update c ip p) where
  good jp hj := by
    rcases eq_or_ne jp ip with rfl | hjp
    · rw [Function.update_self] at hj ⊢
      exact hp hj
    · rw [Function.update_of_ne hjp] at hj ⊢
      exact h.good jp hj
  unique jp kp hj hk he := by
    rcases eq_or_ne jp ip with rfl | hjp
    · rcases eq_or_ne kp jp with rfl | hkp
      · rfl
      · rw [Function.update_self] at hj he
        rw [Function.update_of_ne hkp] at hk he
        exact absurd he.symm (hne hj kp hkp hk)
    · rcases eq_or_ne kp ip with rfl | hkp
      · rw [Function.update_of_ne hjp] at hj he
        rw [Function.update_self] at hk he
        exact absurd he (hne hk jp hjp hj)
      · rw [Function.update_of_ne hjp] at hj he
        rw [Function.update_of_ne hkp] at hk he
        exact h.unique jp kp hj hk he

/-- The entry of an inode has changed. -/
theorem set_same (h : Cached D c) (h0 : 0 < (c ip).ref) (hi : p.inum = (c ip).inum)
    (hp : 0 < p.ref → p.Good D) : Cached D (Function.update c ip p) :=
  h.set hp fun _ jp hjp hj e => hjp (h.unique jp ip hj h0 (e.trans hi))

/-- An inode has changed, of which there is no copy. -/
theorem disk (h : Cached D c) (hno : ∀ ip, 0 < (c ip).ref → (c ip).valid → (c ip).inum ≠ i)
    (hD : ∀ j, j ≠ i → D' j = D j) : Cached D' c where
  good ip h0 := by
    refine ⟨(h.good ip h0).inum, fun hv => ?_⟩
    rw [hD _ (hno ip h0 hv)]
    exact (h.good ip h0).copy hv
  unique := h.unique

/-- An inode has changed, and its copy with it. -/
theorem write (h : Cached D c) (h0 : 0 < (c ip).ref) (hi : p.inum = (c ip).inum)
    (hD : ∀ j, j ≠ (c ip).inum → D' j = D j) (hp : 0 < p.ref → p.Good D') :
    Cached D' (Function.update c ip p) := by
  -- without its copy, the entry does not say anything about the inode
  have hinvalid : Cached D (Function.update c ip { c ip with valid := false }) :=
    h.set_same h0 rfl fun _ => ⟨(h.good ip h0).inum, fun hv => absurd hv Bool.false_ne_true⟩
  have hdisk : Cached D' (Function.update c ip { c ip with valid := false }) := by
    refine hinvalid.disk (fun jp hj hv => ?_) hD
    rcases eq_or_ne jp ip with rfl | hjp
    · rw [Function.update_self] at hv
      exact absurd hv Bool.false_ne_true
    · rw [Function.update_of_ne hjp] at hj ⊢
      exact fun e => hjp (h.unique jp ip hj h0 e)
  have hset : Cached D' (Function.update
      (Function.update c ip { c ip with valid := false }) ip p) :=
    hdisk.set_same (by rwa [Function.update_self]) (by rwa [Function.update_self]) hp
  rwa [Function.update_idem] at hset

end Cached

/-! ## Finding an inode -/

/-- The entry is for inode `inum`. -/
def Handle.Hit (p : Handle) (inum : ℕ) : Prop := 0 < p.ref ∧ p.inum = inum

instance (p : Handle) (inum : ℕ) : Decidable (p.Hit inum) := inferInstanceAs (Decidable (_ ∧ _))

omit sb in
/-- The loop of `iget` finds the entry of the inode, or else the first one that is not in use. -/
theorem igetLoop_spec {l : List (Fin NINODE)} {empty : Option (Fin NINODE)} :
    wp (igetLoop inum l empty)
      (fun ip s' => (l.find? fun ip => (s.icache ip).Hit inum) = some ip ∧ s' = s.addRef ip ∨
        (l.find? fun ip => (s.icache ip).Hit inum) = none ∧
        (empty.or (l.find? fun ip => (s.icache ip).ref = 0)) = some ip ∧ s' = s.take ip inum)
      (fun e s' => e = .iget ∧ s' = s ∧ (empty.or (l.find? fun ip => (s.icache ip).ref = 0)) = none)
      s := by
  induction l generalizing empty with
  | nil =>
    cases empty with
    | none => exact ⟨rfl, rfl, rfl⟩
    | some ip => exact Or.inr ⟨rfl, rfl, rfl⟩
  | cons ip l ih =>
    unfold igetLoop
    simp only [wp_bind, wp_get]
    by_cases hit : 0 < (s.icache ip).ref ∧ (s.icache ip).inum = inum
    · rw [if_pos hit]
      simp only [wp_bind, wp_modify, wp_pure]
      exact Or.inl ⟨List.find?_cons_of_pos (decide_eq_true (p := (s.icache ip).Hit inum) hit), trivial⟩
    · rw [if_neg hit]
      have hfind : ((ip :: l).find? fun ip => (s.icache ip).Hit inum) =
          l.find? fun ip => (s.icache ip).Hit inum :=
        List.find?_cons_of_neg (p := fun ip => decide ((s.icache ip).Hit inum))
          fun e => hit (of_decide_eq_true e)
      have hempty : (empty.or ((ip :: l).find? fun ip => (s.icache ip).ref = 0)) =
          (if empty = none ∧ (s.icache ip).ref = 0 then some ip else empty).or
            (l.find? fun ip => (s.icache ip).ref = 0) := by
        rw [List.find?_cons]
        cases empty with
        | none => by_cases h0 : (s.icache ip).ref = 0 <;> simp [h0]
        | some jp => simp
      rw [hfind, hempty]
      exact ih

omit sb in
@[simp] theorem icache_setInode (s : State) (ip : Fin NINODE) (p : Inode) :
    (s.setInode ip p).icache ip = p := Function.update_self (β := fun _ => Inode) ip p s.icache

omit sb in
@[simp] theorem setInode_setInode (s : State) (ip : Fin NINODE) (p q : Inode) :
    (s.setInode ip p).setInode ip q = s.setInode ip q := by
  unfold State.setInode
  rw [Function.update_idem]

omit sb in
/-- The rule for a run on the disk. -/
theorem wp_onDisk {α : Type} {m : DiskM α} {Q : α → State → Prop} {E : Panic → State → Prop} :
    wp (onDisk m) Q E s ↔ wp m (fun a t => Q a { s with disk := t })
      (fun e t => E e { s with disk := t }) s.disk := wp_zoom _ _ m

/-- The entry is locked, and has its copy. -/
def State.lock (s : State) (ip : Fin NINODE) : State :=
  s.setInode ip { s.icache ip with valid := true, d := dinode s.disk (s.icache ip).inum }

/-- The rule for `ilock`. -/
theorem wp_ilock {Q : Unit → State → Prop} {E : Panic → State → Prop}
    (h : Cached (dinode s.disk) s.icache)
    (hQ : 0 < (s.icache ip).ref → (dinode s.disk (s.icache ip).inum).type ≠ 0 → Q () (s.lock ip))
    (hilock : (s.icache ip).ref = 0 → E .ilock s)
    (htype : (dinode s.disk (s.icache ip).inum).type = 0 → E .ilockType (s.lock ip)) :
    wp (ilock ip) Q E s := by
  unfold ilock
  simp only [wp_bind, wp_get]
  split
  · rename_i h0
    exact hilock (Nat.lt_one_iff.mp h0)
  · rename_i h0
    have h0 : 0 < (s.icache ip).ref := Nat.le_of_not_lt h0
    have hgood := h.good ip h0
    split
    · rename_i hv
      obtain ⟨hd, ht⟩ := hgood.copy hv
      have hself : s.lock ip = s := by
        unfold State.lock State.setInode
        rw [← hd, ← hv, Function.update_eq_self]
      have hres := hQ h0 ht
      rwa [hself] at hres
    · have hread : Dinode.read (s.disk.block (IBLOCK (s.icache ip).inum))
          (dinodeOff (s.icache ip).inum) = dinode s.disk (s.icache ip).inum :=
        (if_pos hgood.inum).symm
      simp only [wp_bind, wp_onDisk, bread, wp_get, wp_pure, wp_modify]
      rw [hread]
      split
      · rename_i ht
        exact htype ht
      · rename_i ht
        exact hQ h0 ht

/-- A locked inode has an entry with its copy. -/
theorem Cached.lock (h : Cached (dinode s.disk) s.icache) (h0 : 0 < (s.icache ip).ref)
    (ht : (dinode s.disk (s.icache ip).inum).type ≠ 0) :
    Cached (dinode (s.lock ip).disk) (s.lock ip).icache :=
  h.set_same h0 rfl fun _ => ⟨(h.good ip h0).inum, fun _ => ⟨rfl, ht⟩⟩

end Cache

end OsLabs.Files
