import OsLabs.Files.ReadWrite

/-!
# Truncating and updating inodes

* `Freed`: references were given up, and the bitmap is all that changed;
* `truncDirect_spec`, `truncIndirect_spec`: the two loops of `itrunc`;
* `Disk.iupdate`: the inode on the disk, and `Updated` what an operation on one inode does;
* `itrunc_spec`: every block of the inode is free afterwards, and no other.
-/

namespace OsLabs.Files

open Bytes StateError Slots

variable [sb : Superblock] {s s' s'' : Disk} {D D' : ℕ → Dinode} {d d' : Dinode}
variable {a b i j k inum : ℕ} {T : ℕ × ℕ → ℕ}

/-! ## The bitmap alone -/

/-- The references are `T`, and only the bitmap differs from `s`. -/
structure Freed (s s' : Disk) (T : ℕ × ℕ → ℕ) : Prop where
  exact : Slots.Exact 0 Data (used s') T
  reserved : ∀ b < datastart, b < sb.size → used s' b = true
  blocks : ∀ c, ¬Map c → s'.block c = s.block c
  logs : Logs s s' Map

theorem Data.not_map (h : Data b) : ¬Map b := fun hm => by
  have h₁ := hm.2
  have h₂ := h.1
  omega

namespace Freed

theorem of_sound (h : Sound s D) : Freed s s (table s D) :=
  ⟨h.exact, h.reserved, fun _ _ => rfl, .refl s⟩

theorem trans (h : Freed s s' T) {T' : ℕ × ℕ → ℕ} (h' : Freed s' s'' T') : Freed s s'' T' :=
  ⟨h'.exact, h'.reserved, fun c hc => (h'.blocks c hc).trans (h.blocks c hc),
    h.logs.trans h'.logs fun _ hc => hc⟩

/-- `bfree` of the block in one slot. -/
theorem bfree_spec (h : Freed s s' T) {x : ℕ × ℕ} (hx : T x ≠ 0) :
    wp (bfree (T x)) (fun _ s'' => Freed s s'' (Function.update T x 0)) (Refused s Map) s' := by
  have hdata := h.exact.mem x hx
  refine wp_mono (Files.bfree_spec (h.exact.marked hx)) (fun _ s'' hs => ?_)
    fun e s'' he => he.after h.logs fun _ hc => hc
  rw [hs]
  refine ⟨h.exact.free rfl hx fun c _ => ?_, fun c hc hcs => ?_, fun c hc => ?_, ?_⟩
  · rw [used_release, Bool.and_eq_true, bne_iff_ne]
  · rw [used_release, h.reserved c hc hcs, Bool.true_and, bne_iff_ne]
    have := hdata.1
    omega
  · rw [block_release fun e => hc (by rw [e]; exact map_BBLOCK hdata.2), h.blocks c hc]
  · exact h.logs.trans (.log _ (map_BBLOCK hdata.2)) fun _ hc => hc

end Freed

/-! ## The loops -/

/-- `d` without the direct entries `l`. -/
def Dinode.clear (d : Dinode) (l : List ℕ) : Dinode :=
  { d with addrs := fun i => if i ∈ l then 0 else d.addrs i }

/-- `T` without the slots `l` of inode `inum`. -/
def without (T : ℕ × ℕ → ℕ) (inum : ℕ) (l : List ℕ) : ℕ × ℕ → ℕ := fun x =>
  if x.1 = inum ∧ x.2 ∈ l then 0 else T x

omit sb in
theorem without_cons (T : ℕ × ℕ → ℕ) (inum k : ℕ) (l : List ℕ) :
    without T inum (k :: l) = without (Function.update T (inum, k) 0) inum l := by
  funext x
  obtain ⟨i, m⟩ := x
  unfold without
  by_cases h : (i, m) = (inum, k)
  · rw [h, Function.update_self]
    simp
  · rw [Function.update_of_ne h]
    have hiff : i = inum ∧ m ∈ k :: l ↔ i = inum ∧ m ∈ l := by
      rw [List.mem_cons]
      constructor
      · rintro ⟨hi, rfl | hm⟩
        · exact absurd (by rw [hi]) h
        · exact ⟨hi, hm⟩
      · exact fun ⟨hi, hm⟩ => ⟨hi, Or.inr hm⟩
    simp only [hiff]

omit sb in
/-- Nothing is taken from a slot that is empty. -/
theorem update_zero (h : T (inum, k) = 0) : Function.update T (inum, k) 0 = T := by
  rw [← h, Function.update_eq_self]

omit sb in
theorem Dinode.clear_cons (d : Dinode) (k : ℕ) (l : List ℕ) :
    d.clear (k :: l) = (d.setAddr k 0).clear l := by
  unfold Dinode.clear
  congr 1
  funext i
  by_cases h : i = k
  · rw [h, Dinode.setAddr_self]
    simp
  · rw [Dinode.setAddr_ne d 0 h]
    simp [h]

omit sb in
theorem Dinode.setAddr_zero (h : d.addrs k = 0) : d.setAddr k 0 = d := by
  unfold Dinode.setAddr
  rw [← h, Function.update_eq_self]

theorem truncDirect_spec {l : List ℕ} (h : Freed s s' T) (hT : ∀ k ∈ l, T (inum, k) = d.addrs k)
    (hl : l.Nodup) :
    wp (l.foldlM (fun (d : Dinode) i => do
        if d.addrs i = 0 then return d
        else do
          bfree (d.addrs i)
          return d.setAddr i 0) d)
      (fun d' s'' => d' = d.clear l ∧ Freed s s'' (without T inum l)) (Refused s Map) s' := by
  induction l generalizing s' T d with
  | nil =>
    refine ⟨?_, ?_⟩
    · simp [Dinode.clear]
    · have hnil : without T inum [] = T := by
        funext x
        simp [without]
      rwa [hnil]
  | cons k l ih =>
    obtain ⟨hk, hl⟩ := List.nodup_cons.mp hl
    have hTk := hT k (List.mem_cons_self)
    have hrest : ∀ m ∈ l, Function.update T (inum, k) 0 (inum, m) = (d.setAddr k 0).addrs m := by
      intro m hm
      have hmk : m ≠ k := fun e => hk (by rwa [← e])
      rw [Function.update_of_ne fun e => hmk (congrArg Prod.snd e), Dinode.setAddr_ne d 0 hmk]
      exact hT m (List.mem_cons_of_mem k hm)
    rw [List.foldlM_cons, wp_bind, Dinode.clear_cons, without_cons]
    split
    · rename_i h0
      rw [wp_pure]
      rw [h0] at hTk
      rw [update_zero hTk, Dinode.setAddr_zero h0] at hrest ⊢
      exact ih h hrest hl
    · rename_i h0
      rw [← hTk] at h0 ⊢
      simp only [wp_bind, wp_pure]
      exact wp_mono (h.bfree_spec h0) (fun _ s₁ h₁ => ih h₁ hrest hl) fun _ _ he => he

theorem truncIndirect_spec {l : List ℕ} (h : Freed s s' T) (ha : Data a)
    (hT : ∀ j ∈ l, T (inum, NDIRECT + 1 + j) = le 4 (s.block a) (4 * j)) (hl : l.Nodup) :
    wp (l.forM fun j => do
        let v ← bread a
        if le 4 v (4 * j) = 0 then return ()
        else bfree (le 4 v (4 * j)))
      (fun _ s'' => Freed s s'' (without T inum (l.map (NDIRECT + 1 + ·)))) (Refused s Map) s' := by
  induction l generalizing s' T with
  | nil =>
    have hnil : without T inum [] = T := by
      funext x
      simp [without]
    rw [List.map_nil, hnil]
    exact h
  | cons j l ih =>
    obtain ⟨hj, hl⟩ := List.nodup_cons.mp hl
    have hTj := hT j (List.mem_cons_self)
    have hrest : ∀ m ∈ l, Function.update T (inum, NDIRECT + 1 + j) 0 (inum, NDIRECT + 1 + m) =
        le 4 (s.block a) (4 * m) := by
      intro m hm
      have hmj : NDIRECT + 1 + m ≠ NDIRECT + 1 + j := fun e => hj (by rwa [← Nat.add_left_cancel e])
      rw [Function.update_of_ne fun e => hmj (congrArg Prod.snd e)]
      exact hT m (List.mem_cons_of_mem j hm)
    rw [List.forM, wp_bind, List.map_cons, without_cons]
    simp only [bread, wp_bind, wp_get, wp_pure]
    rw [h.blocks a ha.not_map, ← hTj]
    split
    · rename_i h0
      rw [wp_pure]
      rw [update_zero h0] at hrest ⊢
      exact ih h hrest hl
    · rename_i h0
      exact wp_mono (h.bfree_spec h0) (fun _ s₁ h₁ => ih h₁ hrest hl) fun _ _ he => he

/-! ## The inode on the disk -/

omit sb in
/-- What is written to a block is read back. -/
theorem Dinode.read_write (h : d.Fits) (v : Buf) (o : ℕ) : Dinode.read (d.write v o) o = d := by
  obtain ⟨htype, hmajor, hminor, hnlink, hsize, haddrs, hrest⟩ := h
  unfold Dinode.read Dinode.write
  ext i
  · dsimp only
    rw [le_puts_of_disjoint (by omega), le_put_of_disjoint (by omega), le_put_of_disjoint (by omega),
      le_put_of_disjoint (by omega), le_put_of_disjoint (by omega), le_put htype]
  · dsimp only
    rw [le_puts_of_disjoint (by omega), le_put_of_disjoint (by omega), le_put_of_disjoint (by omega),
      le_put_of_disjoint (by omega), le_put hmajor]
  · dsimp only
    rw [le_puts_of_disjoint (by omega), le_put_of_disjoint (by omega), le_put_of_disjoint (by omega),
      le_put hminor]
  · dsimp only
    rw [le_puts_of_disjoint (by omega), le_put_of_disjoint (by omega), le_put hnlink]
  · dsimp only
    rw [le_puts_of_disjoint (by omega), le_put hsize]
  · dsimp only
    split
    · rename_i hi
      exact le_puts hi (haddrs i)
    · rename_i hi
      exact (hrest i (by omega)).symm

omit sb in
/-- The other inodes in the block are left alone. -/
theorem Dinode.read_write_ne (v : Buf) {o o' : ℕ} (h : o' + DINODESIZE ≤ o ∨ o + DINODESIZE ≤ o') :
    Dinode.read (d.write v o) o' = Dinode.read v o' := by
  unfold DINODESIZE at h
  have hsame : ∀ x, o' ≤ x → x < o' + 64 → d.write v o x = v x := fun x h₁ h₂ => by
    have hN : NDIRECT + 1 = 13 := rfl
    unfold Dinode.write
    rw [hN]
    rcases h with h | h
    · rw [puts_of_lt (by omega), put_of_lt (by omega), put_of_lt (by omega), put_of_lt (by omega),
        put_of_lt (by omega), put_of_lt (by omega)]
    · rw [puts_of_ge (by omega), put_of_ge (by omega), put_of_ge (by omega), put_of_ge (by omega),
        put_of_ge (by omega), put_of_ge (by omega)]
  unfold Dinode.read
  congr 1
  · exact le_congr fun x h₁ h₂ => hsame x (by omega) (by omega)
  · exact le_congr fun x h₁ h₂ => hsame x (by omega) (by omega)
  · exact le_congr fun x h₁ h₂ => hsame x (by omega) (by omega)
  · exact le_congr fun x h₁ h₂ => hsame x (by omega) (by omega)
  · exact le_congr fun x h₁ h₂ => hsame x (by omega) (by omega)
  · funext i
    split
    · rename_i hi
      unfold NDIRECT at hi
      exact le_congr fun x h₁ h₂ => hsame x (by omega) (by omega)
    · rfl

/-- `iupdate` of inode `inum`, which is `d`. -/
def Disk.iupdate (s : Disk) (inum : ℕ) (d : Dinode) : Disk :=
  s.log (IBLOCK inum) (d.write (s.block (IBLOCK inum)) (dinodeOff inum))

/-- The rule for `iupdate`. -/
theorem wp_iupdate {Q : Unit → Disk → Prop} {E : Panic → Disk → Prop}
    (hQ : Q () (s.iupdate inum d)) (hE : ∀ e, s.NoLog e → E e s) : wp (iupdate inum d) Q E s := by
  unfold iupdate
  simp only [bread, wp_bind, wp_get, wp_pure]
  exact wp_log_write hQ hE

section Iupdate

variable (hin : inum < sb.ninodes)
include hin

theorem dinode_iupdate (hd : d.Fits) :
    dinode (s.iupdate inum d) = Function.update (dinode s) inum d := by
  funext i
  unfold dinode Disk.iupdate
  by_cases hi : i = inum
  · rw [hi, Function.update_self, if_pos hin, block_log_self, Dinode.read_write hd]
  · rw [Function.update_of_ne hi]
    split
    · by_cases hB : IBLOCK i = IBLOCK inum
      · rw [hB, block_log_self, Dinode.read_write_ne]
        unfold IBLOCK IPB BSIZE DINODESIZE at hB
        unfold dinodeOff IPB BSIZE DINODESIZE
        omega
      · rw [block_log_ne _ hB]
    · rfl

/-- Inodes are neither in the bitmap nor among the data. -/
theorem block_iupdate {c : ℕ} (hc : sb.bmapstart ≤ c) : (s.iupdate inum d).block c = s.block c := by
  have := IBLOCK_lt hin
  exact block_log_ne _ (by omega)

theorem used_iupdate (c : ℕ) : used (s.iupdate inum d) c = used s c := by
  unfold used
  rw [block_iupdate hin (BBLOCK_ge c)]

/-- Blocks that inodes refer to. -/
theorem Sound.block_iupdate (h : Sound s D) {x : ℕ × ℕ} (hx : table s D x ≠ 0) :
    (s.iupdate inum d).block (table s D x) = s.block (table s D x) :=
  Files.block_iupdate hin
    (Nat.le_of_lt (Nat.lt_of_lt_of_le bmapstart_lt_datastart (h.table_data hx).1))

theorem Sound.iupdate (h : Sound s D) : Sound (s.iupdate inum d) D := by
  have htab : table (s.iupdate inum d) D = table s D := by
    funext x
    exact congrFun (slot_eq (fun x => h.block_iupdate hin) x.1) x.2
  refine ⟨?_, fun c hc hcs => ?_, h.fits⟩
  · rw [htab]
    exact h.exact.congr fun c _ => used_iupdate hin c
  · rw [used_iupdate hin]
    exact h.reserved c hc hcs

end Iupdate

/-! ## Truncation -/

/-- The inode without its content. -/
def Dinode.truncated (d : Dinode) : Dinode := { d with size := 0, addrs := fun _ => 0 }

/-- What an operation on inode `inum` has done to the disk: the inode is `d` now, and the other
inodes have kept their blocks and these their contents. -/
structure Updated (s s' : Disk) (inum : ℕ) (d : Dinode) : Prop where
  sound : Sound s' (dinode s')
  dinodes : dinode s' = Function.update (dinode s) inum d
  other : ∀ i, i ≠ inum → ∀ k, slot s (dinode s i) k ≠ 0 →
    s'.block (slot s (dinode s i) k) = s.block (slot s (dinode s i) k)

namespace Updated

theorem refl (h : Sound s (dinode s)) : Updated s s inum (dinode s inum) :=
  ⟨h, (Function.update_eq_self inum (dinode s)).symm, fun _ _ _ _ => rfl⟩

/-- The blocks of the inode have changed, and then the inode is written. -/
theorem of_iupdate (h : Sound s (dinode s)) (hin : inum < sb.ninodes)
    (h' : Sound s' (Function.update (dinode s) inum d)) (hk : Keep s s' (dinode s) inum) :
    Updated s (s'.iupdate inum d) inum d := by
  have hd : dinode (s'.iupdate inum d) = Function.update (dinode s) inum d := by
    have hfits := h'.fits inum
    rw [Function.update_self] at hfits
    rw [dinode_iupdate hin hfits]
    congr 1
    funext i
    exact hk.dinode_eq i
  refine ⟨?_, hd, fun i hi k hk0 => ?_⟩
  · rw [hd]
    exact h'.iupdate hin
  · have hdata : Data (slot s (dinode s i) k) := h.table_data (x := (i, k)) hk0
    rw [block_iupdate hin (Nat.le_of_lt (Nat.lt_of_lt_of_le bmapstart_lt_datastart hdata.1))]
    exact hk.other i hi k hk0

/-- Only the blocks of the inode have changed. -/
theorem of_keep (h : Sound s' (dinode s)) (hk : Keep s s' (dinode s) inum) :
    Updated s s' inum (dinode s inum) := by
  have hd : dinode s' = dinode s := funext hk.dinode_eq
  refine ⟨?_, ?_, hk.other⟩
  · rwa [hd]
  · rw [hd, Function.update_eq_self]

variable (h : Updated s s' inum d)
include h

theorem dinode_self : dinode s' inum = d := by rw [h.dinodes, Function.update_self]

theorem dinode_ne (hi : i ≠ inum) : dinode s' i = dinode s i := by
  rw [h.dinodes, Function.update_of_ne hi]

theorem slot_eq (hi : i ≠ inum) : slot s' (dinode s i) = slot s (dinode s i) := by
  apply slot_congr
  have := h.other i hi NDIRECT
  rwa [slot_addrs (Nat.le_refl _)] at this

theorem byteAt_eq (hi : i ≠ inum) (x : ℕ) :
    byteAt s' (dinode s' i) x = byteAt s (dinode s i) x := by
  unfold byteAt blockAddr
  rw [h.dinode_ne hi, h.slot_eq hi]
  split
  · rfl
  · rename_i h0
    rw [h.other i hi _ h0]

theorem dense {z : ℕ} (hi : i ≠ inum) (hz : Dense s (dinode s i) z) :
    Dense s' (dinode s' i) z := by
  rw [h.dinode_ne hi]
  refine ⟨fun n hn => ?_, hz.indirect, hz.le⟩
  unfold blockAddr
  rw [h.slot_eq hi]
  exact hz.block n hn

end Updated

/-- The slots of the other inodes. -/
def others (T : ℕ × ℕ → ℕ) (inum : ℕ) : ℕ × ℕ → ℕ := fun x => if x.1 = inum then 0 else T x

theorem Freed.sound (h : Sound s D) (h' : Freed s s' (others (table s D) inum)) (hd : d.Fits)
    (ha : ∀ i, d.addrs i = 0) : Sound s' (Function.update D inum d) ∧ Keep s s' D inum := by
  have hblock : ∀ x, table s D x ≠ 0 → s'.block (table s D x) = s.block (table s D x) :=
    fun x hx => h'.blocks _ (h.table_data hx).not_map
  refine ⟨⟨?_, h'.reserved, h.fits_update hd⟩, fun c hc => h'.blocks c fun hm => ?_,
    fun i _ k hk => hblock (i, k) hk⟩
  · have htab : table s' (Function.update D inum d) = others (table s D) inum := by
      funext x
      unfold table others
      by_cases hx : x.1 = inum
      · rw [hx, Function.update_self, if_pos rfl]
        unfold slot
        rw [ha, ha]
        simp
      · rw [Function.update_of_ne hx, if_neg hx, Sound.slot_eq hblock]
    rw [htab]
    exact h'.exact
  · exact absurd hm.1 (Nat.not_le_of_lt hc)

omit sb in
/-- An inode without its direct blocks and its indirect block has no blocks. -/
theorem Dinode.clear_all (h : d.Fits) :
    { (d.clear (List.range NDIRECT)).setAddr NDIRECT 0 with size := 0 } = d.truncated := by
  refine Dinode.ext rfl rfl rfl rfl rfl (funext fun i => ?_)
  rcases Nat.lt_trichotomy i NDIRECT with hi | hi | hi
  · exact (Dinode.setAddr_ne _ 0 (Nat.ne_of_lt hi)).trans (if_pos (List.mem_range.mpr hi))
  · rw [hi]
    exact Dinode.setAddr_self (d.clear (List.range NDIRECT)) NDIRECT 0
  · refine (Dinode.setAddr_ne _ 0 (Nat.ne_of_gt hi)).trans
      ((if_neg fun hm => ?_).trans (h.rest i hi))
    exact Nat.lt_asymm hi (List.mem_range.mp hm)

omit sb in
theorem without_direct (h0 : (D inum).addrs NDIRECT = 0) :
    without (table s D) inum (List.range NDIRECT) = others (table s D) inum := by
  funext x
  obtain ⟨i, k⟩ := x
  unfold without others
  by_cases hi : i = inum
  · simp only [hi, true_and, if_true]
    split
    · rfl
    · rename_i hk
      have hk : NDIRECT ≤ k := Nat.le_of_not_lt fun hlt => hk (List.mem_range.mpr hlt)
      unfold table slot
      dsimp only
      split
      · rename_i hle
        rw [Nat.le_antisymm hle hk, h0]
      · exact if_neg fun h => h.2 h0
  · simp only [hi, false_and, if_false]

omit sb in
theorem without_indirect :
    Function.update (without (without (table s D) inum (List.range NDIRECT)) inum
      ((List.range NINDIRECT).map (NDIRECT + 1 + ·))) (inum, NDIRECT) 0 =
      others (table s D) inum := by
  funext x
  obtain ⟨i, k⟩ := x
  by_cases hx : (i, k) = (inum, NDIRECT)
  · rw [hx, Function.update_self]
    exact (if_pos rfl).symm
  · rw [Function.update_of_ne hx]
    unfold without others
    by_cases hi : i = inum
    · simp only [hi, true_and, if_true]
      split
      · rfl
      · rename_i hmap
        split
        · rfl
        · rename_i hrange
          have hne : k ≠ NDIRECT := fun e => hx (by rw [hi, e])
          have hge : NDIRECT ≤ k :=
            Nat.le_of_not_lt fun hlt => hrange (List.mem_range.mpr hlt)
          have hbig : ¬k ≤ NDIRECT + NINDIRECT := fun hle => hmap
            (List.mem_map.mpr ⟨k - (NDIRECT + 1), List.mem_range.mpr (by omega), by omega⟩)
          unfold table slot
          dsimp only
          rw [if_neg (by omega), if_neg fun h => hbig h.1]
    · simp only [hi, false_and, if_false]

/-- The end of `itrunc`: the references of the inode are given up, and it is written. -/
theorem Freed.truncated (h : Sound s (dinode s)) (hin : inum < sb.ninodes)
    (h' : Freed s s' (others (table s (dinode s)) inum)) :
    Updated s (s'.iupdate inum (dinode s inum).truncated) inum (dinode s inum).truncated ∧
      Logs s (s'.iupdate inum (dinode s inum).truncated) fun c => Map c ∨ c = IBLOCK inum := by
  have hfits := h.fits inum
  have hfits' : (dinode s inum).truncated.Fits := ⟨hfits.type, hfits.major, hfits.minor,
    hfits.nlink, Nat.two_pow_pos 32, fun _ => Nat.two_pow_pos 32, fun _ _ => rfl⟩
  obtain ⟨hsound, hkeep⟩ := h'.sound h hfits' fun _ => rfl
  exact ⟨.of_iupdate h hin hsound hkeep,
    (h'.logs.mono fun c hc => Or.inl hc).trans (.log _ (Or.inr rfl)) fun c hc => hc⟩

omit sb in
/-- The loop over the direct blocks leaves the others alone. -/
theorem without_direct_of_ge {k : ℕ} (hk : NDIRECT ≤ k) :
    without T inum (List.range NDIRECT) (inum, k) = T (inum, k) :=
  if_neg fun hm => Nat.not_lt_of_le hk (List.mem_range.mp hm.2)

omit sb in
/-- The loop over the entries leaves the indirect block alone. -/
theorem without_indirect_self :
    without T inum ((List.range NINDIRECT).map (NDIRECT + 1 + ·)) (inum, NDIRECT) =
      T (inum, NDIRECT) := by
  refine if_neg fun hm => ?_
  obtain ⟨j, -, hj⟩ := List.mem_map.mp hm.2
  dsimp only at hj
  omega

theorem itrunc_spec (h : Sound s (dinode s)) (hin : inum < sb.ninodes) :
    wp (itrunc inum (dinode s inum)) (fun d s' => d = (dinode s inum).truncated ∧
        Updated s s' inum d ∧ Logs s s' fun c => Map c ∨ c = IBLOCK inum)
      (Refused s Map) s := by
  have hfits := h.fits inum
  have hT : ∀ k ∈ List.range NDIRECT, table s (dinode s) (inum, k) = (dinode s inum).addrs k :=
    fun k hk => slot_addrs (Nat.le_of_lt (List.mem_range.mp hk))
  unfold itrunc truncDirect
  simp only [wp_bind]
  refine wp_mono (truncDirect_spec (Freed.of_sound h) hT List.nodup_range) (fun d₁ s₁ hd₁ => ?_)
    fun _ _ he => he
  obtain ⟨rfl, h₁⟩ := hd₁
  have hN : ((dinode s inum).clear (List.range NDIRECT)).addrs NDIRECT =
      (dinode s inum).addrs NDIRECT := by
    unfold Dinode.clear
    simp
  rw [hN]
  by_cases h0 : (dinode s inum).addrs NDIRECT = 0
  · rw [if_pos h0]
    simp only [wp_pure]
    have hclear := Dinode.clear_all hfits
    rw [Dinode.setAddr_zero (hN.trans h0)] at hclear
    rw [without_direct h0] at h₁
    rw [hclear]
    exact wp_iupdate ⟨rfl, h₁.truncated h hin⟩ fun e he => ⟨h₁.logs, he⟩
  · rw [if_neg h0]
    have htab : table s (dinode s) (inum, NDIRECT) = (dinode s inum).addrs NDIRECT :=
      slot_addrs (Nat.le_refl _)
    have hdata : Data ((dinode s inum).addrs NDIRECT) := by
      rw [← htab] at h0 ⊢
      exact h.table_data h0
    have hentries : ∀ j ∈ List.range NINDIRECT,
        without (table s (dinode s)) inum (List.range NDIRECT) (inum, NDIRECT + 1 + j) =
          le 4 (s.block ((dinode s inum).addrs NDIRECT)) (4 * j) := fun j hj =>
      (without_direct_of_ge (by omega)).trans (slot_entry (List.mem_range.mp hj) h0)
    have hslot : without (without (table s (dinode s)) inum (List.range NDIRECT)) inum
        ((List.range NINDIRECT).map (NDIRECT + 1 + ·)) (inum, NDIRECT) =
        (dinode s inum).addrs NDIRECT :=
      without_indirect_self.trans ((without_direct_of_ge (Nat.le_refl _)).trans htab)
    simp only [wp_bind]
    refine wp_mono (truncIndirect_spec h₁ hdata hentries List.nodup_range) (fun _ s₂ h₂ => ?_)
      fun _ _ he => he
    have hfree := h₂.bfree_spec (x := (inum, NDIRECT)) (by rwa [hslot])
    rw [hslot, without_indirect] at hfree
    refine wp_mono hfree (fun _ s₃ h₃ => ?_) fun _ _ he => he
    simp only [wp_pure]
    rw [Dinode.clear_all hfits]
    exact wp_iupdate ⟨rfl, h₃.truncated h hin⟩ fun e he => ⟨h₃.logs, he⟩

end OsLabs.Files
