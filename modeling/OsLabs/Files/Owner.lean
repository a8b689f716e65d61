import OsLabs.Lib.Slots
import OsLabs.Files.Disk

/-!
# Who owns a disk block

An inode refers to blocks from its direct entries, to its indirect block, and from the entries of
that block. The slots of all inodes are the slots of the pool of data blocks that the bitmap
manages.

* `slot`: the reference in slot `k` of an inode, and `blockAddr` and `byteAt` the blocks and bytes
  of its content;
* `Sound`: every block of the bitmap is owned once or not at all;
* `Logs`: which blocks `log_write` has put into the header, and `Refused` and `Halted` why it, or
  `balloc`, has panicked;
* `balloc_spec` and `bfree_spec`, and `Sound.alloc_direct`, `Sound.alloc_indirect`,
  `Sound.alloc_entry`: the moves of a reference.
-/

namespace OsLabs.Files

open Bytes StateError Slots

variable [sb : Superblock]

/-! ## References -/

/-- The slots of an inode: its `addrs`, the last of which is the indirect block, and the entries of
that block. -/
def slot (s : Disk) (d : Dinode) (k : ℕ) : ℕ :=
  if k ≤ NDIRECT then d.addrs k
  else if k ≤ NDIRECT + NINDIRECT ∧ d.addrs NDIRECT ≠ 0 then
    le 4 (s.block (d.addrs NDIRECT)) (4 * (k - (NDIRECT + 1)))
  else 0

/-- The slot of the `bn`th block. -/
def slotOf (bn : ℕ) : ℕ := if bn < NDIRECT then bn else bn + 1

/-- The `bn`th block of an inode, or zero. -/
def blockAddr (s : Disk) (d : Dinode) (bn : ℕ) : ℕ := slot s d (slotOf bn)

/-- The byte of the content at offset `x`; a block that is missing reads as zeros. -/
def byteAt (s : Disk) (d : Dinode) (x : ℕ) : UInt8 :=
  if blockAddr s d (x / BSIZE) = 0 then 0 else s.block (blockAddr s d (x / BSIZE)) (x % BSIZE)

/-- Inode `i` on the disk. -/
def dinode (s : Disk) (i : ℕ) : Dinode :=
  if i < sb.ninodes then Dinode.read (s.block (IBLOCK i)) (dinodeOff i) else {}

/-- All slots, of inodes `D`. -/
def table (s : Disk) (D : ℕ → Dinode) (x : ℕ × ℕ) : ℕ := slot s (D x.1) x.2

/-- The bit of block `b` in the bitmap. -/
def used (s : Disk) (b : ℕ) : Bool := bit (s.block (BBLOCK b)) (b % BPB)

/-- The blocks that files are made of. -/
def Data (b : ℕ) : Prop := datastart ≤ b ∧ b < sb.size

/-- The numbers of an inode are in the range of their types. -/
structure Dinode.Fits (d : Dinode) : Prop where
  type : d.type < 256 ^ 2
  major : d.major < 256 ^ 2
  minor : d.minor < 256 ^ 2
  nlink : d.nlink < 256 ^ 2
  size : d.size < 256 ^ 4
  addrs : ∀ i, d.addrs i < 256 ^ 4
  rest : ∀ i, NDIRECT < i → d.addrs i = 0

/-- The bitmap is exact for the inodes `D`: blocks before the data are in use, and every other block
in use is referred to once. -/
structure Sound (s : Disk) (D : ℕ → Dinode) : Prop where
  exact : Slots.Exact 0 Data (used s) (table s D)
  reserved : ∀ b < datastart, b < sb.size → used s b = true
  fits : ∀ i, (D i).Fits

/-! ## The layout of the disk -/

theorem BBLOCK_ge (b : ℕ) : sb.bmapstart ≤ BBLOCK b := Nat.le_add_left _ _

theorem BBLOCK_lt {b : ℕ} (h : b < sb.size) : BBLOCK b < datastart := by
  unfold BBLOCK datastart BPB BSIZE
  omega

theorem IBLOCK_lt {i : ℕ} (h : i < sb.ninodes) : IBLOCK i < sb.bmapstart := by
  have hfit := sb.inodes_fit
  unfold IPB BSIZE DINODESIZE at hfit
  unfold IBLOCK IPB BSIZE DINODESIZE
  omega

theorem Data.ne_zero {b : ℕ} (h : Data b) : b ≠ 0 := by
  have hlt := h.1
  unfold datastart BPB BSIZE at hlt
  omega

theorem bmapstart_lt_datastart : sb.bmapstart < datastart := by
  unfold datastart BPB BSIZE
  omega

theorem Data.lt {b : ℕ} (h : Data b) : b < 256 ^ 4 :=
  Nat.lt_trans h.2 (Nat.lt_trans sb.size_lt (by decide))

theorem Data.ne_BBLOCK {b c : ℕ} (h : Data b) (hc : c < sb.size) : BBLOCK c ≠ b := by
  have := BBLOCK_lt hc
  have := h.1
  omega

omit sb in
@[simp] theorem Dinode.setAddr_self (d : Dinode) (i b : ℕ) : (d.setAddr i b).addrs i = b :=
  Function.update_self (β := fun _ => ℕ) i b d.addrs

omit sb in
theorem Dinode.setAddr_ne (d : Dinode) {i j : ℕ} (b : ℕ) (h : j ≠ i) :
    (d.setAddr i b).addrs j = d.addrs j := Function.update_of_ne (β := fun _ => ℕ) h b d.addrs

omit sb in
theorem Dinode.Fits.setAddr {d : Dinode} {i b : ℕ} (h : d.Fits) (hi : i ≤ NDIRECT)
    (hb : b < 256 ^ 4) : (d.setAddr i b).Fits where
  type := h.type
  major := h.major
  minor := h.minor
  nlink := h.nlink
  size := h.size
  addrs j := by
    rcases eq_or_ne j i with rfl | hj
    · rwa [Dinode.setAddr_self]
    · rw [Dinode.setAddr_ne d b hj]
      exact h.addrs j
  rest j hj := by
    rw [Dinode.setAddr_ne d b (by omega)]
    exact h.rest j hj

/-! ## Slots -/

section Slot

variable {s s' : Disk} {d : Dinode} {a b i j k v : ℕ}

omit sb in
@[simp] theorem block_log_self (b : ℕ) (v : Buf) : (s.log b v).block b = v :=
  Function.update_self (β := fun _ => Buf) b v s.block

omit sb in
theorem block_log_ne (v : Buf) (h : a ≠ b) : (s.log b v).block a = s.block a :=
  Function.update_of_ne (β := fun _ => Buf) h v s.block

omit sb in
theorem slot_addrs (h : k ≤ NDIRECT) : slot s d k = d.addrs k := if_pos h

omit sb in
theorem slot_entry (hj : j < NINDIRECT) (ha : d.addrs NDIRECT ≠ 0) :
    slot s d (NDIRECT + 1 + j) = le 4 (s.block (d.addrs NDIRECT)) (4 * j) := by
  unfold slot
  rw [if_neg (by omega), if_pos ⟨by omega, ha⟩, Nat.add_sub_cancel_left]

omit sb in
/-- The slots depend on the indirect block only. -/
theorem slot_congr (h : d.addrs NDIRECT ≠ 0 →
    s'.block (d.addrs NDIRECT) = s.block (d.addrs NDIRECT)) : slot s' d = slot s d := by
  funext k
  unfold slot
  split
  · rfl
  · split
    · rename_i hk
      rw [h hk.2]
    · rfl

omit sb in
theorem slot_setAddr (hi : i < NDIRECT) :
    slot s (d.setAddr i b) = Function.update (slot s d) i b := by
  funext k
  have hN : (d.setAddr i b).addrs NDIRECT = d.addrs NDIRECT := d.setAddr_ne b (by omega)
  rcases eq_or_ne k i with rfl | hk
  · rw [Function.update_self, slot_addrs (Nat.le_of_lt hi)]
    exact d.setAddr_self k b
  · rw [Function.update_of_ne hk]
    have hkd : (d.setAddr i b).addrs k = d.addrs k := d.setAddr_ne b hk
    unfold slot
    rw [hN, hkd]

omit sb in
/-- A new indirect block is empty. -/
theorem slot_setAddr_indirect (ha : d.addrs NDIRECT = 0) (hb : s.block b = fun _ => 0) :
    slot s (d.setAddr NDIRECT b) = Function.update (slot s d) NDIRECT b := by
  funext k
  have hN : (d.setAddr NDIRECT b).addrs NDIRECT = b := d.setAddr_self NDIRECT b
  rcases eq_or_ne k NDIRECT with rfl | hk
  · rw [Function.update_self, slot_addrs (Nat.le_refl _), hN]
  · rw [Function.update_of_ne hk]
    have hkd : (d.setAddr NDIRECT b).addrs k = d.addrs k := d.setAddr_ne b hk
    unfold slot
    rw [hN, hkd, ha, hb]
    simp [le]

omit sb in
/-- An entry of the indirect block is changed. -/
theorem slot_put (ha : d.addrs NDIRECT ≠ 0) (hj : j < NINDIRECT) (hv : v < 256 ^ 4)
    (hs : s'.block (d.addrs NDIRECT) = put 4 (s.block (d.addrs NDIRECT)) (4 * j) v) :
    slot s' d = Function.update (slot s d) (NDIRECT + 1 + j) v := by
  funext k
  rcases eq_or_ne k (NDIRECT + 1 + j) with rfl | hk
  · rw [Function.update_self, slot_entry hj ha, hs, le_put hv]
  · rw [Function.update_of_ne hk]
    unfold slot
    rw [hs]
    split
    · rfl
    · rw [le_put_of_disjoint]
      omega

end Slot

/-! ## What is logged -/

/-- A block of the bitmap. -/
def Map (c : ℕ) : Prop := sb.bmapstart ≤ c ∧ c < datastart

theorem map_BBLOCK {b : ℕ} (h : b < sb.size) : Map (BBLOCK b) := ⟨BBLOCK_ge b, BBLOCK_lt h⟩

/-- Every block is logged once, the new ones are in `W`, and no operation has begun or ended. -/
structure Logs (s s' : Disk) (W : ℕ → Prop) : Prop where
  nodup : s.lh.Nodup → s'.lh.Nodup
  mem : ∀ c ∈ s'.lh, c ∈ s.lh ∨ W c
  outstanding : s'.outstanding = s.outstanding

section Logs

variable {s s' s'' : Disk} {W W' : ℕ → Prop} {b : ℕ} {e : Panic}

namespace Logs

omit sb in
theorem refl (s : Disk) : Logs s s W := ⟨id, fun _ hc => Or.inl hc, rfl⟩

omit sb in
theorem log (v : Buf) (hb : W b) : Logs s (s.log b v) W := by
  refine ⟨fun h => ?_, fun c hc => ?_, rfl⟩
  · unfold Disk.log
    dsimp only
    split
    · exact h
    · rename_i hnew
      refine List.nodup_append.mpr ⟨h, List.pairwise_singleton _ b, ?_⟩
      rintro c hc c' hc' rfl
      exact hnew (List.mem_singleton.mp hc' ▸ hc)
  · unfold Disk.log at hc
    dsimp only at hc
    split at hc
    · exact Or.inl hc
    · rcases List.mem_append.mp hc with hc | hc
      · exact Or.inl hc
      · rw [List.mem_singleton.mp hc]
        exact Or.inr hb

omit sb in
theorem trans (h : Logs s s' W) (h' : Logs s' s'' W') (hW : ∀ c, W' c → W c) : Logs s s'' W where
  nodup := h'.nodup ∘ h.nodup
  mem c hc := by
    rcases h'.mem c hc with hc | hc
    · exact h.mem c hc
    · exact Or.inr (hW c hc)
  outstanding := h'.outstanding.trans h.outstanding

omit sb in
theorem mono (h : Logs s s' W) (hW : ∀ c, W c → W' c) : Logs s s' W' :=
  (refl s).trans h hW

omit sb in
/-- The header does not get longer than by what is logged. -/
theorem length_le {l : List ℕ} (h : Logs s s' (· ∈ l)) (hs : s.lh.Nodup) :
    s'.lh.length ≤ s.lh.length + l.length := by
  rw [← List.length_append]
  exact ((h.nodup hs).subperm fun c hc => List.mem_append.mpr (h.mem c hc)).length_le

end Logs

/-- `log_write` panics with `e`. -/
def Disk.NoLog (s : Disk) (e : Panic) : Prop :=
  e = .tooBig ∧ s.TooBig ∨ e = .outside ∧ s.outstanding = 0

/-- `log_write` has panicked, after blocks in `W` were logged. -/
def Refused (s : Disk) (W : ℕ → Prop) (e : Panic) (s' : Disk) : Prop := Logs s s' W ∧ s'.NoLog e

/-- All blocks are in use. -/
def Full (s : Disk) : Prop := ∀ c < sb.size, used s c = true

/-- `log_write` or `balloc` has panicked, after blocks in `W` were logged. -/
def Halted (s : Disk) (W : ℕ → Prop) (e : Panic) (s' : Disk) : Prop :=
  Logs s s' W ∧ (s'.NoLog e ∨ e = .balloc ∧ Full s')

theorem Refused.after (h : Refused s' W' e s'') (hs : Logs s s' W) (hW : ∀ c, W' c → W c) :
    Refused s W e s'' :=
  ⟨hs.trans h.1 hW, h.2⟩

theorem Halted.after (h : Halted s' W' e s'') (hs : Logs s s' W) (hW : ∀ c, W' c → W c) :
    Halted s W e s'' :=
  ⟨hs.trans h.1 hW, h.2⟩

theorem Halted.mono (h : Halted s W e s') (hW : ∀ c, W c → W' c) : Halted s W' e s' :=
  h.after (.refl s) hW

theorem Halted.of_balloc (h : Refused s W e s' ∨ e = .balloc ∧ s' = s ∧ Full s) :
    Halted s W e s' := by
  rcases h with h | ⟨rfl, rfl, h⟩
  · exact ⟨h.1, Or.inl h.2⟩
  · exact ⟨.refl s', Or.inr ⟨rfl, h⟩⟩

/-- The rule for `log_write`. -/
theorem wp_log_write {Q : Unit → Disk → Prop} {E : Panic → Disk → Prop} {v : Buf}
    (hQ : Q () (s.log b v)) (hE : ∀ e, s.NoLog e → E e s) : wp (log_write b v) Q E s := by
  unfold log_write
  simp only [wp_bind, wp_get, wp_ite, wp_throw, wp_set]
  exact ⟨fun h => hE _ (Or.inl ⟨rfl, h⟩), fun _ =>
    ⟨fun h => hE _ (Or.inr ⟨rfl, Nat.lt_one_iff.mp h⟩), fun _ => hQ⟩⟩

end Logs

/-! ## The bitmap -/

/-- Block `b` is marked and zeroed. -/
def Disk.alloc (s : Disk) (b : ℕ) : Disk :=
  (s.log (BBLOCK b) (setBit (s.block (BBLOCK b)) (b % BPB))).log b fun _ => 0

/-- The mark of block `b` is taken back. -/
def Disk.release (s : Disk) (b : ℕ) : Disk :=
  s.log (BBLOCK b) (clearBit (s.block (BBLOCK b)) (b % BPB))

/-- A data block that is not in use. -/
def Fresh (s : Disk) (b : ℕ) : Prop := Data b ∧ used s b = false

section Bitmap

variable {s : Disk} {D : ℕ → Dinode} {a b c i j : ℕ}

/-- Where the bit of `c` is after the bit of `b` was changed. -/
theorem bit_block_log {f : Buf → ℕ → Buf} {g : Bool → Bool → Bool}
    (hf : ∀ v i j, bit (f v i) j = g (bit v j) (j == i)) (hg : ∀ x, g x false = x) :
    used (s.log (BBLOCK b) (f (s.block (BBLOCK b)) (b % BPB))) c = g (used s c) (c == b) := by
  unfold used
  by_cases h : BBLOCK c = BBLOCK b
  · have hcb : (c % BPB == b % BPB) = (c == b) := by
      rw [Bool.eq_iff_iff, beq_iff_eq, beq_iff_eq]
      unfold BBLOCK BPB BSIZE at h
      unfold BPB BSIZE
      omega
    rw [h, block_log_self, hf, hcb]
  · have hcb : (c == b) = false := beq_false_of_ne fun e => h (by rw [e])
    rw [block_log_ne _ h, hcb, hg]

/-- Data is not in the bitmap. -/
theorem used_log (v : Buf) (ha : Data a) (hc : c < sb.size) : used (s.log a v) c = used s c := by
  unfold used
  rw [block_log_ne v (ha.ne_BBLOCK hc)]

theorem used_alloc (hb : Data b) (hc : c < sb.size) :
    used (s.alloc b) c = (used s c || c == b) := by
  unfold Disk.alloc
  rw [used_log _ hb hc, bit_block_log (g := or) bit_setBit Bool.or_false]

theorem used_release : used (s.release b) c = (used s c && c != b) :=
  bit_block_log (g := fun x y => x && !y) bit_clearBit (by simp)

/-- `balloc` changes the bitmap and the block itself. -/
theorem block_alloc (hc : c ≠ BBLOCK b) (hcb : c ≠ b) : (s.alloc b).block c = s.block c := by
  unfold Disk.alloc
  rw [block_log_ne _ hcb, block_log_ne _ hc]

theorem block_alloc_self : (s.alloc b).block b = fun _ => 0 := block_log_self b _

theorem block_release (hc : c ≠ BBLOCK b) : (s.release b).block c = s.block c :=
  block_log_ne _ hc

theorem freeBit_some {data : Buf} (h : freeBit data b = some i) :
    i < BPB ∧ b + i < sb.size ∧ bit data i = false := by
  unfold freeBit at h
  have hmem := List.mem_of_find?_eq_some h
  have hp := List.find?_some h
  exact ⟨List.mem_range.mp hmem, by simpa using hp⟩

theorem freeBit_none {data : Buf} (h : freeBit data b = none) (hi : i < BPB)
    (hb : b + i < sb.size) : bit data i = true := by
  unfold freeBit at h
  have hp := List.find?_eq_none.mp h i (List.mem_range.mpr hi)
  simpa [hb] using hp

/-- Within one bitmap block. -/
theorem BBLOCK_add (hb : b % BPB = 0) (hi : i < BPB) :
    BBLOCK (b + i) = BBLOCK b ∧ (b + i) % BPB = i := by
  unfold BBLOCK BPB BSIZE at *
  omega

theorem ballocLoop_spec {fuel : ℕ} (hfuel : sb.size + BPB ≤ fuel * BPB + b)
    (hlt : b < sb.size + BPB) (hb : b % BPB = 0)
    (hres : ∀ c < datastart, c < sb.size → used s c = true)
    (hall : ∀ c < b, c < sb.size → used s c = true) :
    wp (ballocLoop fuel b) (fun r s' => Fresh s r ∧ s' = s.alloc r)
      (fun e s' => Refused s Map e s' ∨ e = .balloc ∧ s' = s ∧ Full s) s := by
  induction fuel generalizing b with
  | zero => omega
  | succ fuel ih =>
    unfold ballocLoop
    split
    · simp only [bread, wp_bind, wp_get, wp_pure]
      cases hfind : freeBit (s.block (BBLOCK b)) b with
      | some bi =>
        obtain ⟨hi, hlt, hbit⟩ := freeBit_some hfind
        obtain ⟨hB, hmod⟩ := BBLOCK_add hb hi
        have hfree : used s (b + bi) = false := by
          unfold used
          rwa [hB, hmod]
        have hdata : Data (b + bi) := by
          refine ⟨?_, hlt⟩
          by_contra hge
          rw [hres _ (by omega) hlt] at hfree
          cases hfree
        simp only [bzero, wp_bind, wp_pure]
        refine wp_log_write (wp_log_write ⟨⟨hdata, hfree⟩, ?_⟩ fun e he => Or.inl ⟨?_, he⟩)
          fun e he => Or.inl ⟨.refl s, he⟩
        · unfold Disk.alloc
          rw [hB, hmod]
        · exact .log _ (hB ▸ map_BBLOCK hlt)
      | none =>
        rename_i hbs
        rw [Nat.succ_mul] at hfuel
        refine ih (by omega) (by omega) (by rw [Nat.add_mod_right]; exact hb) fun c hc hcs => ?_
        by_cases hcb : c < b
        · exact hall c hcb hcs
        · obtain ⟨i, rfl⟩ := Nat.exists_eq_add_of_le (Nat.le_of_not_lt hcb)
          obtain ⟨hB, hmod⟩ := BBLOCK_add hb (Nat.lt_of_add_lt_add_left hc)
          unfold used
          rw [hB, hmod]
          exact freeBit_none hfind (Nat.lt_of_add_lt_add_left hc) hcs
    · exact Or.inr ⟨rfl, rfl, fun c hc => hall c (by omega) hc⟩

/-- `balloc` finds a free block, unless all are in use, or the log has no room for it. -/
theorem balloc_spec (hres : ∀ c < datastart, c < sb.size → used s c = true) :
    wp balloc (fun r s' => Fresh s r ∧ s' = s.alloc r)
      (fun e s' => Refused s Map e s' ∨ e = .balloc ∧ s' = s ∧ Full s) s := by
  have hB : 0 < BPB := by
    unfold BPB BSIZE
    omega
  refine ballocLoop_spec ?_ (by omega) (Nat.zero_mod _) hres
    fun c hc => absurd hc (Nat.not_lt_zero c)
  have := Nat.le_mul_of_pos_right sb.size hB
  rw [Nat.succ_mul]
  omega

/-- `bfree` takes back the mark of a block in use. -/
theorem bfree_spec (hb : used s b = true) :
    wp (bfree b) (fun _ s' => s' = s.release b) (Refused s Map) s := by
  unfold bfree
  simp only [bread, wp_bind, wp_get, wp_pure]
  unfold used at hb
  rw [if_neg (by rw [hb]; exact Bool.noConfusion)]
  exact wp_log_write rfl fun e he => ⟨.refl s, he⟩

end Bitmap

/-! ## Moves of a reference -/

namespace Sound

variable {s s' : Disk} {D : ℕ → Dinode} {d : Dinode} {b i j k inum : ℕ}

theorem table_data (h : Sound s D) {x : ℕ × ℕ} (hx : table s D x ≠ 0) : Data (table s D x) :=
  h.exact.mem x hx

theorem table_used (h : Sound s D) {x : ℕ × ℕ} (hx : table s D x ≠ 0) :
    used s (table s D x) = true := h.exact.marked hx

omit sb in
/-- The indirect block of inode `i`. -/
theorem addrs_indirect (D : ℕ → Dinode) (i : ℕ) : table s D (i, NDIRECT) = (D i).addrs NDIRECT :=
  slot_addrs (Nat.le_refl _)

omit sb in
/-- What every inode refers to is as before, if its indirect block is. -/
theorem slot_eq (h : ∀ x, table s D x ≠ 0 → s'.block (table s D x) = s.block (table s D x))
    (i : ℕ) : slot s' (D i) = slot s (D i) := by
  apply slot_congr
  rw [← addrs_indirect (s := s)]
  exact h (i, NDIRECT)

omit sb in
/-- The table after one inode has got or lost one reference. -/
theorem table_update (hd : slot s' d = Function.update (slot s (D inum)) k b)
    (hne : ∀ i, i ≠ inum → slot s' (D i) = slot s (D i)) :
    table s' (Function.update D inum d) = Function.update (table s D) (inum, k) b := by
  funext x
  obtain ⟨i, l⟩ := x
  unfold table
  dsimp only
  rcases eq_or_ne i inum with rfl | hi
  · rw [Function.update_self, hd]
    rcases eq_or_ne l k with rfl | hl
    · rw [Function.update_self, Function.update_self]
    · rw [Function.update_of_ne hl, Function.update_of_ne fun e => hl (congrArg Prod.snd e)]
  · rw [Function.update_of_ne hi, hne i hi, Function.update_of_ne fun e => hi (congrArg Prod.fst e)]

/-- A fresh block is none of those referred to, so that `balloc` leaves all of these alone. -/
theorem block_alloc (h : Sound s D) (hb : Fresh s b) {x : ℕ × ℕ} (hx : table s D x ≠ 0) :
    (s.alloc b).block (table s D x) = s.block (table s D x) := by
  have hdata := h.table_data hx
  refine Files.block_alloc (hdata.ne_BBLOCK hb.1.2).symm fun e => ?_
  have := h.table_used hx
  rw [e, hb.2] at this
  cases this

theorem fits_update (h : Sound s D) (hd : d.Fits) (i : ℕ) : (Function.update D inum d i).Fits := by
  rcases eq_or_ne i inum with rfl | hi
  · rwa [Function.update_self]
  · rw [Function.update_of_ne hi]
    exact h.fits i

/-- A fresh block goes into an empty slot. -/
theorem alloc (h : Sound s D) (hb : Fresh s b) (h0 : slot s (D inum) k = 0)
    (hu : ∀ c < sb.size, used s' c = used (s.alloc b) c) (hd : d.Fits)
    (hslot : slot s' d = Function.update (slot s (D inum)) k b)
    (hne : ∀ i, i ≠ inum → slot s' (D i) = slot s (D i)) :
    Sound s' (Function.update D inum d) where
  exact := by
    rw [table_update hslot hne]
    refine h.exact.alloc h0 hb.1.ne_zero hb.1 hb.2 fun c hc => ?_
    rw [hu c hc.2, used_alloc hb.1 hc.2, Bool.or_eq_true, beq_iff_eq]
  reserved c hc hcs := by
    rw [hu c hcs, used_alloc hb.1 hcs, h.reserved c hc hcs]
    rfl
  fits := h.fits_update hd

/-- A direct block. -/
theorem alloc_direct (h : Sound s D) (hb : Fresh s b) (hi : i < NDIRECT)
    (h0 : (D inum).addrs i = 0) :
    Sound (s.alloc b) (Function.update D inum ((D inum).setAddr i b)) := by
  have hslot : ∀ i, slot (s.alloc b) (D i) = slot s (D i) := slot_eq fun x => h.block_alloc hb
  refine h.alloc hb (k := i) ?_ (fun _ _ => rfl)
    ((h.fits inum).setAddr (Nat.le_of_lt hi) hb.1.lt) ?_ fun i _ => hslot i
  · rw [slot_addrs (Nat.le_of_lt hi), h0]
  · rw [slot_setAddr hi, hslot]

/-- The indirect block. -/
theorem alloc_indirect (h : Sound s D) (hb : Fresh s b) (h0 : (D inum).addrs NDIRECT = 0) :
    Sound (s.alloc b) (Function.update D inum ((D inum).setAddr NDIRECT b)) := by
  have hslot : ∀ i, slot (s.alloc b) (D i) = slot s (D i) := slot_eq fun x => h.block_alloc hb
  refine h.alloc hb (k := NDIRECT) ?_ (fun _ _ => rfl)
    ((h.fits inum).setAddr (Nat.le_refl _) hb.1.lt) ?_ fun i _ => hslot i
  · rw [slot_addrs (Nat.le_refl _), h0]
  · rw [slot_setAddr_indirect h0 block_alloc_self, hslot]

/-- A block behind the indirect block, whose buffer is changed accordingly. -/
theorem alloc_entry (h : Sound s D) (hb : Fresh s b) (hj : j < NINDIRECT)
    (ha : (D inum).addrs NDIRECT ≠ 0) (h0 : slot s (D inum) (NDIRECT + 1 + j) = 0) :
    Sound ((s.alloc b).log ((D inum).addrs NDIRECT)
      (put 4 ((s.alloc b).block ((D inum).addrs NDIRECT)) (4 * j) b)) D := by
  have hslot : ∀ i, slot (s.alloc b) (D i) = slot s (D i) := slot_eq fun x => h.block_alloc hb
  have htab := addrs_indirect (s := s) D inum
  have hdata : Data ((D inum).addrs NDIRECT) := by
    rw [← htab] at ha ⊢
    exact h.table_data ha
  set v := put 4 ((s.alloc b).block ((D inum).addrs NDIRECT)) (4 * j) b with hv
  have hself : slot ((s.alloc b).log ((D inum).addrs NDIRECT) v) (D inum) =
      Function.update (slot s (D inum)) (NDIRECT + 1 + j) b := by
    rw [slot_put ha hj hb.1.lt (block_log_self _ _), hslot]
  -- the indirect blocks of two inodes are not the same
  have hne : ∀ i, i ≠ inum →
      slot ((s.alloc b).log ((D inum).addrs NDIRECT) v) (D i) = slot s (D i) := fun i hi => by
    rw [← hslot i]
    refine slot_congr fun h0' => block_log_ne _ fun e => hi ?_
    rw [← addrs_indirect (s := s)] at h0' e
    rw [← htab] at e
    exact congrArg Prod.fst (h.exact.inj _ _ e h0')
  have hsound := h.alloc hb h0 (fun c hc => used_log v hdata hc) (h.fits inum) hself hne
  rwa [Function.update_eq_self] at hsound

/-- A block that is not the indirect block of any inode gets new contents. -/
theorem log (h : Sound s D) {a : ℕ} (ha : Data a) (hne : ∀ i, (D i).addrs NDIRECT ≠ a) (v : Buf) :
    Sound (s.log a v) D := by
  have htab : table (s.log a v) D = table s D := by
    funext x
    exact congrFun (slot_congr fun _ => block_log_ne v (hne x.1)) x.2
  refine ⟨?_, fun c hc hcs => ?_, h.fits⟩
  · rw [htab]
    exact h.exact.congr fun c hc => used_log v ha hc.2
  · rw [used_log v ha hcs]
    exact h.reserved c hc hcs

end Sound


end OsLabs.Files
