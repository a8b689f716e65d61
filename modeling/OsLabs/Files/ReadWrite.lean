import Mathlib.Data.List.GetD
import OsLabs.Files.Bmap

/-!
# Reading and writing an inode

The content of an inode is the function `byteAt`, and its blocks are those below its end (`Dense`),
so that `readi` never allocates.

* `content`: the bytes from an offset on;
* `Stored`: some bytes of the content were replaced;
* `readi_spec` and `writei_spec`, through `readLoop_spec` and `writeLoop_spec`.
-/

namespace OsLabs.Files

open Bytes StateError Xv6

variable [sb : Superblock] {s s' s'' : Disk} {D D' : ℕ → Dinode} {d d' d'' : Dinode}
variable {a b k m n bn off inum z : ℕ}

/-- The `m` bytes of the content from `off` on. -/
def content (s : Disk) (d : Dinode) (off m : ℕ) : List UInt8 :=
  (List.range m).map fun i => byteAt s d (off + i)

/-- The blocks up to the byte `z` are there, and no others. -/
structure Dense (s : Disk) (d : Dinode) (z : ℕ) : Prop where
  block : ∀ n < MAXFILE, blockAddr s d n ≠ 0 ↔ n * BSIZE < z
  indirect : d.addrs NDIRECT ≠ 0 ↔ NDIRECT * BSIZE < z
  le : z ≤ MAXFILE * BSIZE

/-! ## Content -/

omit sb in
theorem content_add (s : Disk) (d : Dinode) (off m n : ℕ) :
    content s d off (m + n) = content s d off m ++ content s d (off + m) n := by
  unfold content
  rw [List.range_add, List.map_append, List.map_map]
  congr 1
  apply List.map_congr_left
  intro i _
  rw [Function.comp_apply, Nat.add_assoc]

omit sb in
/-- A part of a block is a part of the content. -/
theorem slice_block (h0 : blockAddr s d (off / BSIZE) ≠ 0) (hm : m ≤ BSIZE - off % BSIZE) :
    slice (s.block (blockAddr s d (off / BSIZE))) (off % BSIZE) m = content s d off m := by
  unfold slice content
  apply List.map_congr_left
  intro i hi
  have hi := List.mem_range.mp hi
  have hdiv : (off + i) / BSIZE = off / BSIZE := by
    unfold BSIZE at *
    omega
  have hmod : (off + i) % BSIZE = off % BSIZE + i := by
    unfold BSIZE at *
    omega
  unfold byteAt
  rw [hdiv, hmod, if_neg h0]

omit sb in
theorem Dense.block_ne (h : Dense s d z) (hoff : off < z) : blockAddr s d (off / BSIZE) ≠ 0 := by
  have hle := h.le
  unfold MAXFILE NDIRECT NINDIRECT BSIZE at hle
  refine (h.block _ ?_).mpr ?_
  · unfold MAXFILE NDIRECT NINDIRECT BSIZE
    omega
  · unfold BSIZE
    omega

omit sb in
theorem Dense.lt (h : Dense s d z) (hoff : off ≤ z) : off < 2 ^ 32 := by
  have hle := h.le
  unfold MAXFILE NDIRECT NINDIRECT BSIZE at hle
  omega

/-! ## Reading -/

theorem readLoop_spec (h : Sound s D) (hz : Dense s (D inum) z) {fuel tot : ℕ} {dst : List UInt8}
    (hfuel : n < fuel + tot) (htot : tot ≤ n) (hend : off + (n - tot) ≤ z) :
    wp (readLoop n fuel (D inum) off tot dst)
      (fun r s' => r = (dst ++ content s (D inum) off (n - tot), D inum) ∧ s' = s)
      (fun _ _ => False) s := by
  induction fuel generalizing off tot dst with
  | zero => omega
  | succ fuel ih =>
    unfold readLoop
    split
    · rename_i hlt
      have hmax := hz.le
      have hlt32 : off + min (n - tot) (BSIZE - off % BSIZE) < 2 ^ 32 := hz.lt (by omega)
      have hne : blockAddr s (D inum) (off / BSIZE) ≠ 0 := hz.block_ne (by omega)
      have hbn : off / BSIZE < MAXFILE := by
        unfold BSIZE at *
        omega
      have hm : min (n - tot) (BSIZE - off % BSIZE) + (n - (tot + min (n - tot) (BSIZE - off % BSIZE)))
          = n - tot := by omega
      have hpos : 0 < BSIZE - off % BSIZE := by
        unfold BSIZE
        omega
      simp only [bread, wp_bind]
      refine wp_mono (bmap_spec h hbn) (fun r s₁ hr => ?_) fun e s₁ he => hne he.1
      obtain ⟨hr1, hg⟩ := hr
      obtain ⟨rfl, hd⟩ := hg.hit hne
      rw [hd] at hr1 ⊢
      simp only [wp_get, wp_pure]
      have hoff : uint (off + min (n - tot) (BSIZE - off % BSIZE)) =
          off + min (n - tot) (BSIZE - off % BSIZE) := Nat.mod_eq_of_lt hlt32
      rw [hoff, hr1, slice_block hne (Nat.min_le_right _ _)]
      refine wp_post (ih (by omega) (by omega) (by omega)) fun r s₂ hr₂ => ⟨?_, hr₂.2⟩
      rw [hr₂.1, List.append_assoc, ← content_add, hm]
    · rename_i hge
      have hzero : n - tot = 0 := by omega
      rw [hzero]
      exact ⟨by simp [content], rfl⟩

/-! ## Writing to one block -/

section Store

/-- The blocks of the content are not indirect blocks. -/
theorem Sound.blockAddr_ne (h : Sound s D) (h0 : blockAddr s (D inum) bn ≠ 0) (i : ℕ) :
    (D i).addrs NDIRECT ≠ blockAddr s (D inum) bn := fun e => by
  rw [← addrs_indirect (s := s)] at e
  have hx := h.exact.inj (inum, slotOf bn) (i, NDIRECT) e.symm h0
  exact Placed.slotOf_ne bn (congrArg Prod.snd hx)

theorem Sound.store (h : Sound s D) (h0 : blockAddr s (D inum) bn ≠ 0) (v : Buf) :
    Sound (s.log (blockAddr s (D inum) bn) v) D :=
  h.log (h.table_data (x := (inum, slotOf bn)) h0) (h.blockAddr_ne h0) v

theorem Sound.slot_store (h : Sound s D) (h0 : blockAddr s (D inum) bn ≠ 0) (v : Buf) (i : ℕ) :
    slot (s.log (blockAddr s (D inum) bn) v) (D i) = slot s (D i) :=
  slot_congr fun _ => block_log_ne v (h.blockAddr_ne h0 i)

theorem Keep.store (h : Sound s D) (h0 : blockAddr s (D inum) bn ≠ 0) (v : Buf) :
    Keep s (s.log (blockAddr s (D inum) bn) v) D inum where
  inodes c hc := by
    have h₁ := bmapstart_lt_datastart
    have h₂ : datastart ≤ blockAddr s (D inum) bn :=
      (h.table_data (x := (inum, slotOf bn)) h0).1
    exact block_log_ne v (by omega)
  other i hi k hk := block_log_ne v fun e =>
    hi (congrArg Prod.fst (h.exact.inj (i, k) (inum, slotOf bn) e hk))

theorem byteAt_store (h : Sound s D) (h0 : blockAddr s (D inum) bn ≠ 0) (v : Buf) (x : ℕ) :
    byteAt (s.log (blockAddr s (D inum) bn) v) (D inum) x =
      if x / BSIZE = bn then v (x % BSIZE) else byteAt s (D inum) x := by
  unfold byteAt
  have hslot : blockAddr (s.log (blockAddr s (D inum) bn) v) (D inum) = blockAddr s (D inum) := by
    funext n
    exact congrFun (h.slot_store h0 v inum) (slotOf n)
  rw [hslot]
  by_cases hx : x / BSIZE = bn
  · rw [if_pos hx, hx, if_neg h0, block_log_self]
  · rw [if_neg hx]
    split
    · rfl
    · rename_i hne
      have : blockAddr s (D inum) (x / BSIZE) ≠ blockAddr s (D inum) bn := fun e => by
        have hinj := h.exact.inj (inum, slotOf (x / BSIZE)) (inum, slotOf bn) e hne
        exact hx (slotOf_inj (congrArg Prod.snd hinj))
      rw [block_log_ne v this]

end Store

/-! ## Writing -/

theorem Keep.congr (h : Keep s s' D inum) (hD : ∀ i, i ≠ inum → D' i = D i) :
    Keep s s' D' inum :=
  ⟨h.inodes, fun i hi k => by rw [hD i hi]; exact h.other i hi k⟩

/-- The bytes `src` were written at `off`; the content had ended at `z`. -/
structure Stored (s s' : Disk) (D : ℕ → Dinode) (inum : ℕ) (d d' : Dinode) (off : ℕ)
    (src : List UInt8) (z : ℕ) : Prop where
  sound : Sound s' (Function.update D inum d')
  keep : Keep s s' D inum
  info : d' = { d with addrs := d'.addrs }
  dense : Dense s' d' (max z (off + src.length))
  byte : ∀ x, byteAt s' d' x =
    if off ≤ x then src.getD (x - off) (byteAt s d x) else byteAt s d x
  addr : ∀ n, blockAddr s d n ≠ 0 → blockAddr s' d' n = blockAddr s d n
  kept : d.addrs NDIRECT ≠ 0 → d'.addrs NDIRECT = d.addrs NDIRECT
  same : off + src.length ≤ z → d' = d
  logs : Logs s s' fun c => Map c ∨ c ≠ 0 ∧ c = d'.addrs NDIRECT ∨
    ∃ n, off / BSIZE ≤ n ∧ n * BSIZE < off + src.length ∧ c = blockAddr s' d' n

namespace Stored

variable {src src' : List UInt8}

theorem refl (h : Sound s (Function.update D inum d)) (hz : Dense s d z) (hoff : off ≤ z) :
    Stored s s D inum d d off [] z where
  sound := h
  keep := .refl s D inum
  info := rfl
  dense := by
    rw [List.length_nil, Nat.add_zero, Nat.max_eq_left hoff]
    exact hz
  byte x := by simp
  addr _ _ := rfl
  kept _ := rfl
  same _ := rfl
  logs := .refl s

theorem trans (h : Stored s s' D inum d d' off src z)
    (h' : Stored s' s'' D inum d' d'' (off + src.length) src' (max z (off + src.length))) :
    Stored s s'' D inum d d'' off (src ++ src') z where
  sound := h'.sound
  keep := h.keep.trans h'.keep fun _ _ => rfl
  info := by rw [h'.info, h.info]
  dense := by
    have := h'.dense
    rwa [Nat.max_assoc, Nat.max_eq_right (Nat.le_add_right (off + src.length) src'.length),
      Nat.add_assoc, ← List.length_append] at this
  byte x := by
    rw [h'.byte, h.byte]
    by_cases h₁ : off + src.length ≤ x
    · have hsub : x - (off + src.length) = x - off - src.length := by omega
      rw [if_pos h₁, if_pos (by omega), if_pos (by omega), List.getD_append_right _ _ _ _ (by omega),
        List.getD_eq_default src _ (by omega), hsub]
    · rw [if_neg h₁]
      split
      · rw [List.getD_append _ _ _ _ (by omega)]
      · rfl
  addr n hn := by rw [h'.addr n (by rw [h.addr n hn]; exact hn), h.addr n hn]
  kept hn := by rw [h'.kept (by rw [h.kept hn]; exact hn), h.kept hn]
  same hle := by
    rw [List.length_append] at hle
    rw [h'.same (by omega), h.same (by omega)]
  logs := by
    rw [List.length_append, ← Nat.add_assoc]
    refine (h.logs.mono fun c hc => ?_).trans h'.logs fun c hc => ?_
    · rcases hc with hc | ⟨hc, rfl⟩ | ⟨n, hn, hlt, rfl⟩
      · exact Or.inl hc
      · exact Or.inr (Or.inl ⟨hc, (h'.kept hc).symm⟩)
      · have hmax := h.dense.le
        have hlen : n * BSIZE < max z (off + src.length) := by omega
        have hne := (h.dense.block n (Nat.lt_of_mul_lt_mul_right (Nat.lt_of_lt_of_le hlen hmax))).mpr
          hlen
        exact Or.inr (Or.inr ⟨n, hn, by omega, (h'.addr n hne).symm⟩)
    · rcases hc with hc | hc | ⟨n, hn, hlt, rfl⟩
      · exact Or.inl hc
      · exact Or.inr (Or.inl hc)
      · have hdiv : off / BSIZE ≤ (off + src.length) / BSIZE :=
          Nat.div_le_div_right (Nat.le_add_right _ _)
        exact Or.inr (Or.inr ⟨n, hdiv.trans hn, hlt, rfl⟩)

/-- A part of one block is written. -/
theorem block {s₁ : Disk} {d₁ : Dinode} {chunk : List UInt8}
    (hg : Grown s s₁ (Function.update D inum d) inum d₁ (off / BSIZE)) (hz : Dense s d z)
    (hoff : off ≤ z) (hpos : chunk ≠ []) (hlen : chunk.length ≤ BSIZE - off % BSIZE)
    (hfit : off + chunk.length ≤ MAXFILE * BSIZE) :
    Stored s (s₁.log (blockAddr s₁ d₁ (off / BSIZE))
      (blit (s₁.block (blockAddr s₁ d₁ (off / BSIZE))) (off % BSIZE) chunk)) D inum d d₁ off chunk
      z := by
  have hd : Function.update D inum d inum = d := Function.update_self inum d D
  have hd₁ : Function.update D inum d₁ inum = d₁ := Function.update_self inum d₁ D
  obtain ⟨hsound, hkeep, hbyte, hinfo, haddr, hself, hind, hkept, hhit, hlogs⟩ := hg
  rw [Function.update_idem] at hsound
  rw [hd] at hbyte hinfo haddr hind hkept hhit
  have hself' : blockAddr s₁ (Function.update D inum d₁ inum) (off / BSIZE) ≠ 0 := by rwa [hd₁]
  set v := blit (s₁.block (blockAddr s₁ d₁ (off / BSIZE))) (off % BSIZE) chunk with hv
  have hslot := fun i => hsound.slot_store hself' v i
  have hstore := hsound.store hself' v
  have hk := Keep.store hsound hself' v
  have hb := byteAt_store hsound hself' v
  have hsl := hslot inum
  rw [hd₁] at hstore hk hb hsl
  have hlenpos := List.length_pos_iff.mpr hpos
  have hdata : blockAddr (s₁.log (blockAddr s₁ d₁ (off / BSIZE)) v) d₁ = blockAddr s₁ d₁ :=
    funext fun n => congrFun hsl (slotOf n)
  refine ⟨hstore, ?_, hinfo, ?_, fun x => ?_, fun n hn => ?_, hkept, fun hle => ?_, ?_⟩
  · exact (hkeep.congr fun i hi => (Function.update_of_ne hi d D).symm).trans
      (hk.congr fun i hi => (Function.update_of_ne hi d₁ D).symm) fun _ _ => rfl
  · refine ⟨fun n hn => ?_, ?_, max_le hz.le hfit⟩
    · rw [hdata]
      by_cases hbn : n = off / BSIZE
      · rw [hbn]
        refine iff_of_true hself ?_
        unfold BSIZE
        omega
      · rw [haddr n hbn, hz.block n hn]
        unfold BSIZE at *
        omega
    · rw [hind, hz.indirect]
      unfold BSIZE at *
      omega
  · rw [hb, hbyte]
    by_cases hx : x / BSIZE = off / BSIZE
    · have hbx : s₁.block (blockAddr s₁ d₁ (off / BSIZE)) (x % BSIZE) = byteAt s d x := by
        rw [← hbyte, byteAt, hx, if_neg hself]
      rw [if_pos hx, hv, blit, hbx]
      by_cases hle : off ≤ x
      · have hsub : x % BSIZE - off % BSIZE = x - off := by
          unfold BSIZE at *
          omega
        rw [if_pos hle, if_pos (by unfold BSIZE at *; omega), hsub]
      · rw [if_neg hle, if_neg (by unfold BSIZE at *; omega)]
    · rw [if_neg hx]
      split
      · rw [List.getD_eq_default]
        unfold BSIZE at *
        omega
      · rfl
  · rw [hdata]
    by_cases hbn : n = off / BSIZE
    · rw [hbn] at hn ⊢
      rw [(hhit hn).1, (hhit hn).2]
    · exact haddr n hbn
  · exact (hhit (hz.block_ne (by omega))).2
  · have hblock : ∃ n, off / BSIZE ≤ n ∧ n * BSIZE < off + chunk.length ∧
        blockAddr s₁ d₁ (off / BSIZE) = blockAddr s₁ d₁ n :=
      ⟨off / BSIZE, Nat.le_refl _, by unfold BSIZE; omega, rfl⟩
    rw [hdata]
    refine (hlogs.mono fun c hc => ?_).trans (.log v (Or.inr (Or.inr hblock))) fun c hc => hc
    rcases hc with hc | rfl | hc
    · exact Or.inl hc
    · exact Or.inr (Or.inr hblock)
    · exact Or.inr (Or.inl hc)

end Stored

/-- A panic after the part of the bytes in the first block was written. -/
theorem Broken.after_block {s₁ : Disk} {d₁ : Dinode} {chunk : List UInt8} {e : Panic}
    (hst : Stored s s₁ D inum d d₁ off chunk z) (hle : off % BSIZE + chunk.length ≤ BSIZE)
    (h : Broken s₁ d₁ n e s') : Broken s d (n + 1) e s' := by
  obtain ⟨a, l, ha, hl, hhalt⟩ := h
  refine ⟨a, blockAddr s₁ d₁ (off / BSIZE) :: l, fun h0 => ?_, Nat.succ_le_succ hl,
    hhalt.after (hst.logs.mono fun c hc => ?_) fun c hc => ?_⟩
  · have hkept := hst.kept h0
    rw [ha (by rwa [hkept]), hkept]
  · rcases hc with hc | ⟨hc, rfl⟩ | ⟨k, hk, hlt, rfl⟩
    · exact Or.inl hc
    · exact Or.inr (Or.inl (ha hc).symm)
    · have hself : k = off / BSIZE := by
        unfold BSIZE at *
        omega
      rw [hself]
      exact Or.inr (Or.inr List.mem_cons_self)
  · rcases hc with hc | hc | hc
    · exact Or.inl hc
    · exact Or.inr (Or.inl hc)
    · exact Or.inr (Or.inr (List.mem_cons_of_mem _ hc))

theorem writeLoop_spec {src : List UInt8} {fuel tot : ℕ} (h : Sound s (Function.update D inum d))
    (hz : Dense s d z) (hoff : off ≤ z) (hfuel : src.length < fuel + tot) (htot : tot ≤ src.length)
    (hfit : off + (src.length - tot) ≤ MAXFILE * BSIZE) :
    wp (writeLoop src fuel d off tot)
      (fun r s' => r.1 = off + (src.length - tot) ∧
        Stored s s' D inum d r.2 off (src.drop tot) z)
      (fun e s' => tot < src.length ∧
        Broken s d ((off + (src.length - tot)) / BSIZE - off / BSIZE + 1) e s') s := by
  induction fuel generalizing s d off tot z with
  | zero => omega
  | succ fuel ih =>
    unfold writeLoop
    split
    · rename_i hlt
      have hmax : MAXFILE * BSIZE < 2 ^ 32 := by decide
      have hbn : off / BSIZE < MAXFILE := by
        unfold BSIZE at *
        omega
      have hpos : 0 < BSIZE - off % BSIZE := by
        unfold BSIZE
        omega
      generalize hm : min (src.length - tot) (BSIZE - off % BSIZE) = m
      have hlen : ((src.drop tot).take m).length = m := by
        rw [List.length_take, List.length_drop]
        omega
      have hd : Function.update D inum d inum = d := Function.update_self inum d D
      have hbmap := @bmap_spec _ _ _ _ inum h hbn
      rw [hd] at hbmap
      simp only [bread, wp_bind, wp_get, wp_pure]
      refine wp_mono hbmap (fun r s₁ hr => ?_) fun e s₁ he =>
        ⟨hlt, he.2.mono (Nat.le_add_left 1 _)⟩
      obtain ⟨hr1, hg⟩ := hr
      have hne : (src.drop tot).take m ≠ [] := List.ne_nil_of_length_pos (by omega)
      have hst := Stored.block hg hz hoff hne (by omega) (by omega)
      have hnext : uint (off + m) = off + m := Nat.mod_eq_of_lt (by omega)
      have hdense := hst.dense
      rw [hlen] at hdense
      rw [hr1, hnext]
      refine wp_log_write (wp_mono (ih hst.sound hdense (Nat.le_max_right _ _) (by omega) (by omega)
        (by omega)) (fun r' s₂ hr' => ⟨by omega, ?_⟩) fun e s₂ he => ⟨hlt, ?_⟩) fun e he => ⟨hlt, ?_⟩
      · have hsplit : (src.drop tot).take m ++ src.drop (tot + m) = src.drop tot := by
          rw [← List.drop_drop, List.take_append_drop]
        rw [← hsplit]
        refine hst.trans ?_
        rw [hlen]
        exact hr'.2
      · -- more is to be written, so the block was written to its end
        obtain ⟨hmore, hbroken⟩ := he
        have hsum : off + m + (src.length - (tot + m)) = off + (src.length - tot) := by omega
        rw [hsum] at hbroken
        refine (hbroken.after_block hst (by omega)).mono ?_
        have hdiv : (off + m) / BSIZE = off / BSIZE + 1 := by
          unfold BSIZE at *
          omega
        have hle : off / BSIZE + 1 ≤ (off + (src.length - tot)) / BSIZE := by
          rw [← hdiv]
          exact Nat.div_le_div_right (by omega)
        omega
      · have hgrown := Broken.of_grown hg he
        rw [hd] at hgrown
        exact hgrown.mono (Nat.le_add_left 1 _)
    · rename_i hge
      have hzero : src.length - tot = 0 := by omega
      rw [hzero, List.drop_eq_nil_of_le (by omega), wp_pure]
      exact ⟨rfl, .refl h hz hoff⟩

end OsLabs.Files
