import OsLabs.Files.Owner

/-!
# The blocks of an inode

`bmap` finds the block of an inode that holds a given part of its content, and allocates it, and the
indirect block, if need be. What the inode contains does not change: a missing block reads as zeros,
and a new one is zeroed.

* `Keep`: the other inodes keep their blocks, and these their contents;
* `Placed`: a fresh block was put into one slot of the inode, and `Grown` what `bmap` does;
* `bmap_spec`, with `Broken` for its panics.
-/

namespace OsLabs.Files

open Bytes StateError

variable [sb : Superblock] {s s' s'' : Disk} {D D' : ℕ → Dinode} {d d' d'' : Dinode}
variable {b k n bn inum : ℕ}

/-! ## The other inodes -/

/-- The inodes on the disk are as before, and so is what the inodes other than `inum` refer to. -/
structure Keep (s s' : Disk) (D : ℕ → Dinode) (inum : ℕ) : Prop where
  inodes : ∀ b < sb.bmapstart, s'.block b = s.block b
  other : ∀ i, i ≠ inum → ∀ k, slot s (D i) k ≠ 0 →
    s'.block (slot s (D i) k) = s.block (slot s (D i) k)

namespace Keep

theorem refl (s : Disk) (D : ℕ → Dinode) (inum : ℕ) : Keep s s D inum :=
  ⟨fun _ _ => rfl, fun _ _ _ _ => rfl⟩

theorem slot_eq (h : Keep s s' D inum) {i : ℕ} (hi : i ≠ inum) : slot s' (D i) = slot s (D i) := by
  apply slot_congr
  have := h.other i hi NDIRECT
  rwa [slot_addrs (Nat.le_refl _)] at this

theorem trans (h : Keep s s' D inum) (h' : Keep s' s'' D' inum) (hD : ∀ i, i ≠ inum → D' i = D i) :
    Keep s s'' D inum where
  inodes b hb := (h'.inodes b hb).trans (h.inodes b hb)
  other i hi k hk := by
    have hs := h'.other i hi k
    rw [hD i hi, h.slot_eq hi] at hs
    exact (hs hk).trans (h.other i hi k hk)

/-- The contents of the other inodes. -/
theorem byteAt_eq (h : Keep s s' D inum) {i : ℕ} (hi : i ≠ inum) (x : ℕ) :
    byteAt s' (D i) x = byteAt s (D i) x := by
  unfold byteAt blockAddr
  rw [h.slot_eq hi]
  split
  · rfl
  · rename_i h0
    rw [h.other i hi _ h0]

theorem dinode_eq (h : Keep s s' D inum) (i : ℕ) : dinode s' i = dinode s i := by
  unfold dinode
  split
  · rename_i hi
    rw [h.inodes _ (IBLOCK_lt hi)]
  · rfl

end Keep

/-! ## A block in one slot -/

theorem Logs.alloc {W : ℕ → Prop} (hb : Data b) (hW : W b) (hM : ∀ c, Map c → W c) :
    Logs s (s.alloc b) W :=
  (log _ (hM _ (map_BBLOCK hb.2))).trans (log _ hW) fun _ h => h

/-- The fresh block `b` was put into slot `k` of inode `inum`, which is now `d`. -/
structure Placed (s s' : Disk) (D : ℕ → Dinode) (inum : ℕ) (d : Dinode) (k b : ℕ) : Prop where
  sound : Sound s' (Function.update D inum d)
  empty : slot s (D inum) k = 0
  fresh : Fresh s b
  slots : slot s' d = Function.update (slot s (D inum)) k b
  zero : s'.block b = fun _ => 0
  inodes : ∀ c < sb.bmapstart, s'.block c = s.block c
  blocks : ∀ x, table s D x ≠ 0 → x ≠ (inum, NDIRECT) →
    s'.block (table s D x) = s.block (table s D x)
  info : d = { D inum with addrs := d.addrs }
  logs : Logs s s' fun c => Map c ∨ c = b ∨ c ≠ 0 ∧ c = d.addrs NDIRECT

theorem inodes_alloc (hb : Fresh s b) (c : ℕ) (hc : c < sb.bmapstart) :
    (s.alloc b).block c = s.block c := by
  have h₁ := BBLOCK_ge b
  have h₂ := hb.1.1
  have h₃ := bmapstart_lt_datastart
  exact block_alloc (by omega) (by omega)

namespace Placed

theorem keep (h : Placed s s' D inum d k b) : Keep s s' D inum :=
  ⟨h.inodes, fun i hi k hk => h.blocks (i, k) hk fun e => hi (congrArg Prod.fst e)⟩

theorem slot_self (h : Placed s s' D inum d k b) : slot s' d k = b := by
  rw [h.slots, Function.update_self]

theorem slot_ne (h : Placed s s' D inum d k b) {l : ℕ} (hl : l ≠ k) :
    slot s' d l = slot s (D inum) l := by
  rw [h.slots, Function.update_of_ne hl]

theorem addrs_indirect (h : Placed s s' D inum d k b) (hk : NDIRECT ≠ k) :
    d.addrs NDIRECT = (D inum).addrs NDIRECT := by
  have := h.slot_ne hk
  rwa [slot_addrs (Nat.le_refl _), slot_addrs (Nat.le_refl _)] at this

omit sb in
theorem slotOf_ne (n : ℕ) : slotOf n ≠ NDIRECT := by
  unfold slotOf
  split
  · omega
  · omega

/-- The content does not change: the missing block read as zeros. -/
theorem byteAt_eq (h : Placed s s' D inum d k b) (x : ℕ) :
    byteAt s' d x = byteAt s (D inum) x := by
  unfold byteAt blockAddr
  rw [h.slots]
  by_cases hk : slotOf (x / BSIZE) = k
  · rw [hk, Function.update_self, if_neg h.fresh.1.ne_zero, h.zero, h.empty]
    rfl
  · rw [Function.update_of_ne hk]
    split
    · rfl
    · rename_i h0
      have hblock := h.blocks (inum, slotOf (x / BSIZE)) h0
        fun e => slotOf_ne _ (congrArg Prod.snd e)
      unfold table at hblock
      rw [hblock]

theorem direct (h : Sound s D) (hb : Fresh s b) (hk : k < NDIRECT) (h0 : (D inum).addrs k = 0) :
    Placed s (s.alloc b) D inum ((D inum).setAddr k b) k b where
  sound := h.alloc_direct hb hk h0
  empty := by rw [slot_addrs (Nat.le_of_lt hk), h0]
  fresh := hb
  slots := by rw [slot_setAddr hk, Sound.slot_eq fun x => h.block_alloc hb]
  zero := block_alloc_self
  inodes := inodes_alloc hb
  blocks x hx _ := h.block_alloc hb hx
  info := rfl
  logs := .alloc hb.1 (Or.inr (Or.inl rfl)) fun _ hc => Or.inl hc

theorem indirect (h : Sound s D) (hb : Fresh s b) (h0 : (D inum).addrs NDIRECT = 0) :
    Placed s (s.alloc b) D inum ((D inum).setAddr NDIRECT b) NDIRECT b where
  sound := h.alloc_indirect hb h0
  empty := by rw [slot_addrs (Nat.le_refl _), h0]
  fresh := hb
  slots := by
    rw [slot_setAddr_indirect h0 block_alloc_self, Sound.slot_eq fun x => h.block_alloc hb]
  zero := block_alloc_self
  inodes := inodes_alloc hb
  blocks x hx _ := h.block_alloc hb hx
  info := rfl
  logs := .alloc hb.1 (Or.inr (Or.inl rfl)) fun _ hc => Or.inl hc

theorem entry (h : Sound s D) (hb : Fresh s b) {j : ℕ} (hj : j < NINDIRECT)
    (ha : (D inum).addrs NDIRECT ≠ 0) (h0 : slot s (D inum) (NDIRECT + 1 + j) = 0) :
    Placed s ((s.alloc b).log ((D inum).addrs NDIRECT)
      (put 4 ((s.alloc b).block ((D inum).addrs NDIRECT)) (4 * j) b)) D inum (D inum)
      (NDIRECT + 1 + j) b := by
  have htab := Sound.addrs_indirect (s := s) D inum
  have ha' : table s D (inum, NDIRECT) ≠ 0 := by rwa [htab]
  have hdata := h.table_data ha'
  have hused := h.table_used ha'
  rw [htab] at hdata hused
  have hne : b ≠ (D inum).addrs NDIRECT := fun e => by
    rw [← e, hb.2] at hused
    cases hused
  refine ⟨?_, h0, hb, ?_, ?_, fun c hc => ?_, fun x hx hxi => ?_, rfl,
    (Logs.alloc hb.1 (Or.inr (Or.inl rfl)) fun _ hc => Or.inl hc).trans
      (.log _ (Or.inr (Or.inr ⟨ha, rfl⟩))) fun _ hc => hc⟩
  · rw [Function.update_eq_self]
    exact h.alloc_entry hb hj ha h0
  · rw [slot_put ha hj hb.1.lt (block_log_self _ _), Sound.slot_eq fun x => h.block_alloc hb]
  · rw [block_log_ne _ hne, block_alloc_self]
  · have h₁ := bmapstart_lt_datastart
    have h₂ := hdata.1
    rw [block_log_ne _ (by omega), inodes_alloc hb c hc]
  · rw [block_log_ne _ fun e => hxi (h.exact.inj _ _ (e.trans htab.symm) hx), h.block_alloc hb hx]

end Placed

/-! ## The code -/

/-- What `bmap` for block `bn` does to inode `inum`, which is `d` afterwards. -/
structure Grown (s s' : Disk) (D : ℕ → Dinode) (inum : ℕ) (d : Dinode) (bn : ℕ) : Prop where
  sound : Sound s' (Function.update D inum d)
  keep : Keep s s' D inum
  byte : ∀ x, byteAt s' d x = byteAt s (D inum) x
  info : d = { D inum with addrs := d.addrs }
  addr : ∀ n, n ≠ bn → blockAddr s' d n = blockAddr s (D inum) n
  self : blockAddr s' d bn ≠ 0
  indirect : d.addrs NDIRECT ≠ 0 ↔ (D inum).addrs NDIRECT ≠ 0 ∨ NDIRECT ≤ bn
  kept : (D inum).addrs NDIRECT ≠ 0 → d.addrs NDIRECT = (D inum).addrs NDIRECT
  hit : blockAddr s (D inum) bn ≠ 0 → s' = s ∧ d = D inum
  logs : Logs s s' fun c => Map c ∨ c = blockAddr s' d bn ∨ c ≠ 0 ∧ c = d.addrs NDIRECT

omit sb in
theorem slotOf_inj (h : slotOf n = slotOf bn) : n = bn := by
  unfold slotOf at h
  split at h <;> split at h <;> omega

namespace Grown

theorem refl (h : Sound s D) (hself : blockAddr s (D inum) bn ≠ 0)
    (hN : NDIRECT ≤ bn → (D inum).addrs NDIRECT ≠ 0) : Grown s s D inum (D inum) bn where
  sound := by rwa [Function.update_eq_self]
  keep := .refl s D inum
  byte _ := rfl
  info := rfl
  addr _ _ := rfl
  self := hself
  indirect := ⟨Or.inl, fun h => h.elim id hN⟩
  kept _ := rfl
  hit _ := ⟨rfl, rfl⟩
  logs := .refl s

theorem of_placed (h : Placed s s' D inum d (slotOf bn) b)
    (hN : NDIRECT ≤ bn → (D inum).addrs NDIRECT ≠ 0) : Grown s s' D inum d bn where
  sound := h.sound
  keep := h.keep
  byte := h.byteAt_eq
  info := h.info
  addr n hn := h.slot_ne fun e => hn (slotOf_inj e)
  self := by
    unfold blockAddr
    rw [h.slot_self]
    exact h.fresh.1.ne_zero
  indirect := by
    rw [h.addrs_indirect (Placed.slotOf_ne bn).symm]
    exact ⟨Or.inl, fun h => h.elim id hN⟩
  kept _ := h.addrs_indirect (Placed.slotOf_ne bn).symm
  hit h0 := absurd h.empty h0
  logs := by
    have := h.logs
    rwa [← h.slot_self] at this

/-- The indirect block is allocated first. -/
theorem after_indirect (h : Placed s s' D inum d NDIRECT b)
    (h' : Grown s' s'' (Function.update D inum d) inum d' bn) (hbn : NDIRECT ≤ bn)
    (h0 : blockAddr s (D inum) bn = 0) :
    Grown s s'' D inum d' bn := by
  have hd : Function.update D inum d inum = d := Function.update_self inum d D
  obtain ⟨hsound, hkeep, hbyte, hinfo, haddr, hself, hind, hkept, -, hlogs⟩ := h'
  rw [Function.update_idem] at hsound
  rw [hd] at hbyte hinfo haddr hind hkept
  have hb : d.addrs NDIRECT = b := by rw [← h.slot_self, slot_addrs (Nat.le_refl _)]
  have hN : d'.addrs NDIRECT = b := by
    rw [← hb, hkept (by rw [hb]; exact h.fresh.1.ne_zero)]
  refine ⟨hsound, h.keep.trans hkeep fun i hi => Function.update_of_ne hi d D, fun x => ?_, ?_,
    fun n hn => ?_, hself, ?_, fun ha => ?_, fun hne => absurd h0 hne, ?_⟩
  · rw [hbyte, h.byteAt_eq]
  · rw [hinfo, h.info]
  · rw [haddr n hn]
    exact h.slot_ne (Placed.slotOf_ne n)
  · rw [hind]
    exact ⟨fun _ => Or.inr hbn, fun _ => Or.inr hbn⟩
  · have := h.empty
    rw [slot_addrs (Nat.le_refl _)] at this
    exact absurd this ha
  · refine (h.logs.mono fun c hc => ?_).trans hlogs fun c hc => hc
    rcases hc with hc | hc | hc
    · exact Or.inl hc
    · exact Or.inr (Or.inr ⟨by rw [hc]; exact h.fresh.1.ne_zero, by rw [hc, hN]⟩)
    · exact Or.inr (Or.inr ⟨hc.1, by rw [hc.2, hb, hN]⟩)

end Grown

/-- A panic while inode `d` gets blocks: besides the bitmap and the indirect block, at most `n` blocks
were logged. -/
def Broken (s : Disk) (d : Dinode) (n : ℕ) (e : Panic) (s' : Disk) : Prop :=
  ∃ (a : ℕ) (l : List ℕ), (d.addrs NDIRECT ≠ 0 → a = d.addrs NDIRECT) ∧ l.length ≤ n ∧
    Halted s (fun c => Map c ∨ c = a ∨ c ∈ l) e s'

theorem Broken.of_halted {e : Panic} (h : Halted s Map e s') : Broken s d n e s' :=
  ⟨d.addrs NDIRECT, [], fun _ => rfl, Nat.zero_le n, h.mono fun _ hc => Or.inl hc⟩

theorem Broken.mono {e : Panic} {m : ℕ} (h : Broken s d m e s') (hmn : m ≤ n) : Broken s d n e s' := by
  obtain ⟨a, l, ha, hl, hhalt⟩ := h
  exact ⟨a, l, ha, hl.trans hmn, hhalt⟩

/-- The block was found, and then `log_write` panics. -/
theorem Broken.of_grown {e : Panic} (h : Grown s s' D inum d bn) (he : s'.NoLog e) :
    Broken s (D inum) 1 e s' := by
  refine ⟨d.addrs NDIRECT, [blockAddr s' d bn], h.kept, Nat.le_refl 1,
    h.logs.mono fun c hc => ?_, Or.inl he⟩
  rcases hc with hc | hc | hc
  · exact Or.inl hc
  · exact Or.inr (Or.inr (List.mem_singleton.mpr hc))
  · exact Or.inr (Or.inl hc.2)

/-- The indirect block was allocated before. -/
theorem Broken.after_indirect {e : Panic} (hp : Placed s s' D inum d NDIRECT b)
    (h : Broken s' d n e s'') : Broken s (D inum) n e s'' := by
  obtain ⟨a, l, ha, hl, hhalt⟩ := h
  have hb : d.addrs NDIRECT = b := by rw [← hp.slot_self, slot_addrs (Nat.le_refl _)]
  have hself : a = d.addrs NDIRECT := ha (by rw [hb]; exact hp.fresh.1.ne_zero)
  refine ⟨a, l, fun h0 => ?_, hl, hhalt.after (hp.logs.mono fun c hc => ?_) fun c hc => hc⟩
  · have := hp.empty
    rw [slot_addrs (Nat.le_refl _)] at this
    exact absurd this h0
  · rw [hself]
    rcases hc with hc | rfl | hc
    · exact Or.inl hc
    · exact Or.inr (Or.inl hb.symm)
    · exact Or.inr (Or.inl hc.2)

theorem bmapEntry_spec (h : Sound s D) (ha : (D inum).addrs NDIRECT ≠ 0) (hge : NDIRECT ≤ bn)
    (hj : bn - NDIRECT < NINDIRECT) :
    wp (bmapEntry (D inum) (bn - NDIRECT))
      (fun r s' => r.1 = blockAddr s' r.2 bn ∧ Grown s s' D inum r.2 bn)
      (fun e s' => blockAddr s (D inum) bn = 0 ∧ Broken s (D inum) 1 e s') s := by
  have hslot : slotOf bn = NDIRECT + 1 + (bn - NDIRECT) := by
    unfold slotOf
    rw [if_neg (by omega)]
    omega
  have haddr : blockAddr s (D inum) bn =
      le 4 (s.block ((D inum).addrs NDIRECT)) (4 * (bn - NDIRECT)) := by
    unfold blockAddr
    rw [hslot, slot_entry hj ha]
  unfold bmapEntry
  simp only [bread, wp_bind, wp_get, wp_pure]
  rw [← haddr]
  split
  · rename_i h0
    simp only [wp_bind]
    refine wp_mono (balloc_spec h.reserved) (fun b s₁ hb => ?_) fun e s₁ he => ⟨h0, .of_halted (.of_balloc he)⟩
    obtain ⟨hfresh, rfl⟩ := hb
    have hp := Placed.entry h hfresh hj ha (by rwa [← hslot])
    rw [← hslot] at hp
    simp only [wp_get, wp_pure]
    refine wp_log_write ⟨hp.slot_self.symm, .of_placed hp fun _ => ha⟩ fun e he => ⟨h0, ?_⟩
    exact ⟨(D inum).addrs NDIRECT, [b], fun _ => rfl, Nat.le_refl 1,
      .alloc hfresh.1 (Or.inr (Or.inr List.mem_cons_self)) fun _ hc => Or.inl hc, Or.inl he⟩
  · rename_i h0
    exact ⟨rfl, .refl h h0 fun _ => ha⟩

/-- `bmap` returns the block of the inode, with all contents unchanged. -/
theorem bmap_spec (h : Sound s D) (hbn : bn < MAXFILE) :
    wp (bmap (D inum) bn) (fun r s' => r.1 = blockAddr s' r.2 bn ∧ Grown s s' D inum r.2 bn)
      (fun e s' => blockAddr s (D inum) bn = 0 ∧ Broken s (D inum) 1 e s') s := by
  unfold bmap
  split
  · -- a direct block
    rename_i hlt
    have hslot : slotOf bn = bn := if_pos hlt
    have haddr : ∀ s (d : Dinode), blockAddr s d bn = d.addrs bn := fun s d => by
      unfold blockAddr
      rw [hslot, slot_addrs (Nat.le_of_lt hlt)]
    split
    · rename_i h0
      simp only [wp_bind]
      refine wp_mono (balloc_spec h.reserved) (fun b s₁ hb => ?_) fun e s₁ he =>
        ⟨by rw [haddr, h0], .of_halted (.of_balloc he)⟩
      obtain ⟨hfresh, rfl⟩ := hb
      have hp : Placed s (s.alloc b) D inum ((D inum).setAddr bn b) (slotOf bn) b := by
        rw [hslot]
        exact .direct h hfresh hlt h0
      rw [wp_pure, haddr, Dinode.setAddr_self]
      exact ⟨rfl, .of_placed hp fun hge => absurd hge (by omega)⟩
    · rename_i h0
      rw [wp_pure]
      refine ⟨(haddr s _).symm, .refl h ?_ fun hge => absurd hge (by omega)⟩
      rwa [haddr]
  · rename_i hge
    have hge : NDIRECT ≤ bn := Nat.le_of_not_lt hge
    have hj : bn - NDIRECT < NINDIRECT := by
      unfold MAXFILE at hbn
      omega
    rw [if_pos hj]
    unfold bmapIndirect
    split
    · rename_i h0
      have haddr : blockAddr s (D inum) bn = 0 := by
        have hslot : slotOf bn = bn + 1 := if_neg (Nat.not_lt_of_ge hge)
        unfold blockAddr slot
        rw [hslot, if_neg (by omega), if_neg fun e => e.2 h0]
      simp only [wp_bind]
      refine wp_mono (balloc_spec h.reserved) (fun b s₁ hb => ?_) fun e s₁ he =>
        ⟨haddr, .of_halted (.of_balloc he)⟩
      obtain ⟨hfresh, rfl⟩ := hb
      have hp := Placed.indirect h hfresh h0
      have hind : (Function.update D inum ((D inum).setAddr NDIRECT b) inum).addrs NDIRECT ≠ 0 := by
        rw [Function.update_self, Dinode.setAddr_self]
        exact hfresh.1.ne_zero
      have hent := bmapEntry_spec hp.sound hind hge hj
      rw [Function.update_self] at hent
      rw [wp_pure]
      exact wp_mono hent (fun r s₂ hr => ⟨hr.1, .after_indirect hp hr.2 hge haddr⟩)
        fun e s₂ he => ⟨haddr, .after_indirect hp he.2⟩
    · rename_i h0
      simp only [wp_bind, wp_pure]
      exact bmapEntry_spec h h0 hge hj

end OsLabs.Files
