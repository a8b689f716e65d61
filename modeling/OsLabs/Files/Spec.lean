import OsLabs.Files.Trunc

/-!
# Inodes as lists of bytes

What the users of `fs.c` see of an inode is a type, a device, a number of links and a list of bytes
(`File`), and reading and writing are operations on that list.

* `Consistent`: the bitmap is exact, and every inode has the blocks up to its end;
* `readi_spec` and `writei_spec`: `readi` reads a part of the list and `writei` replaces one;
* `Consistent.updated`, `Consistent.iset`, `iallocLoop_spec`: an inode is changed and written.
-/

namespace OsLabs.Files

open Bytes StateError Xv6

/-- An inode for its users. A free inode has type 0. -/
@[ext] structure File where
  type : ℕ := 0
  major : ℕ := 0
  minor : ℕ := 0
  nlink : ℕ := 0
  data : List UInt8 := []

/-- Read at most `n` bytes from offset `off` on: what `readi` returns, and the bytes it copies. -/
def File.read (devsw : ℕ → Option (ℕ → ℤ × List UInt8)) (f : File) (off n : ℕ) :
    ℤ × List UInt8 :=
  if f.type = T_DEV then
    if f.major < NDEV then ((devsw f.major).map fun read => read n).getD (-1, []) else (-1, [])
  else if f.data.length < off ∨ 2 ^ 32 ≤ off + n then (-1, [])
  else (((f.data.drop off).take n).length, (f.data.drop off).take n)

/-- Write `src` at offset `off`: what `writei` returns, and the file afterwards. -/
def File.write (devsw : ℕ → Option (List UInt8 → ℤ)) (f : File) (off : ℕ) (src : List UInt8) :
    ℤ × File :=
  if f.type = T_DEV then
    if f.major < NDEV then (((devsw f.major).map fun write => write src).getD (-1), f) else (-1, f)
  else if f.data.length < off ∨ MAXFILE * BSIZE < off + src.length then (-1, f)
  else (src.length, { f with data := f.data.take off ++ src ++ f.data.drop (off + src.length) })

variable [sb : Superblock] {s s' : Disk} {D : ℕ → Dinode} {d d' : Dinode} {i n off inum z : ℕ}
variable {src : List UInt8}

/-- What the users see of the inode `d`. -/
def file (s : Disk) (d : Dinode) : File := ⟨d.type, d.major, d.minor, d.nlink, content s d 0 d.size⟩

/-- The files on the disk. -/
def files (s : Disk) (i : ℕ) : File := file s (dinode s i)

/-- The bitmap is exact, every inode has the blocks up to its end, and free inodes have none. -/
structure Consistent (s : Disk) : Prop where
  sound : Sound s (dinode s)
  dense : ∀ i, Dense s (dinode s i) (dinode s i).size
  free : ∀ i, (dinode s i).type = 0 → (dinode s i).size = 0

/-! ## Contents -/

omit sb in
@[simp] theorem length_content (s : Disk) (d : Dinode) (off n : ℕ) :
    (content s d off n).length = n := by simp [content]

omit sb in
theorem content_congr (h : ∀ x, byteAt s' d' x = byteAt s d x) :
    content s' d' off n = content s d off n := by
  unfold content
  exact List.map_congr_left fun i _ => h _

omit sb in
/-- A part of a content. -/
theorem content_part (h : off ≤ z) (hn : off + n ≤ z) :
    content s d off n = ((content s d 0 z).drop off).take n := by
  apply List.ext_getElem
  · simp
    omega
  · intro i h₁ h₂
    simp [content]

/-- The content after a write. -/
theorem Stored.content_eq {inum : ℕ} (h : Stored s s' D inum d d' off src z) (hoff : off ≤ z) :
    content s' d' 0 (max z (off + src.length)) =
      (content s d 0 z).take off ++ src ++ (content s d 0 z).drop (off + src.length) := by
  apply List.ext_getElem
  · simp
    omega
  · intro i h₁ h₂
    have hi : (content s' d' 0 (max z (off + src.length)))[i] = byteAt s' d' i := by
      simp [content]
    have hold : ∀ j (hj : j < (content s d 0 z).length), (content s d 0 z)[j] = byteAt s d j :=
      fun j hj => by simp [content]
    have hmin : min off z = off := Nat.min_eq_left hoff
    rw [hi, h.byte]
    simp only [List.getElem_append, List.length_append, List.length_take, length_content, hmin,
      List.getElem_take, List.getElem_drop, hold]
    by_cases h₃ : off ≤ i
    · by_cases h₄ : i < off + src.length
      · rw [if_pos h₃, dif_pos h₄, dif_neg (by omega), List.getD_eq_getElem _ _ (by omega)]
      · have hsub : off + src.length + (i - (off + src.length)) = i := by omega
        rw [if_pos h₃, dif_neg h₄, List.getD_eq_default _ _ (by omega), hsub]
    · rw [if_neg h₃, dif_pos (by omega), dif_pos (by omega)]

/-! ## Reading and writing -/

omit sb in
theorem isDev_iff (d : Dinode) : d.isDev ↔ d.major < NDEV := by
  unfold Dinode.isDev NDEV
  omega

theorem Consistent.size_lt (h : Consistent s) (i : ℕ) : (dinode s i).size < 2 ^ 32 :=
  Nat.lt_of_le_of_lt (h.dense i).le (by decide)

theorem readi_spec {devsw : ℕ → Option (ℕ → ℤ × List UInt8)} (h : Consistent s)
    (hoff : off < 2 ^ 32) (hn : n < 2 ^ 32) :
    wp (readi devsw (dinode s inum) off n)
      (fun r s' => r = ((files s inum).read devsw off n, dinode s inum) ∧ s' = s)
      (fun _ _ => False) s := by
  have hlen : (files s inum).data.length = (dinode s inum).size := length_content _ _ _ _
  have htype : (files s inum).type = (dinode s inum).type := rfl
  have hmajor : (files s inum).major = (dinode s inum).major := rfl
  unfold readi File.read
  rw [hlen, htype, hmajor]
  by_cases hdev : (dinode s inum).type = T_DEV
  · rw [if_pos hdev, if_pos hdev]
    by_cases hmaj : (dinode s inum).isDev
    · rw [if_pos hmaj, if_pos ((isDev_iff _).mp hmaj)]
      cases devsw (dinode s inum).major with
      | none => exact ⟨rfl, rfl⟩
      | some read => exact ⟨rfl, rfl⟩
    · rw [if_neg hmaj, if_neg fun hlt => hmaj ((isDev_iff _).mpr hlt)]
      exact ⟨rfl, rfl⟩
  · rw [if_neg hdev, if_neg hdev]
    have hwrap : uint (off + n) < off ↔ 2 ^ 32 ≤ off + n := by
      unfold uint
      omega
    by_cases hbad : (dinode s inum).size < off ∨ 2 ^ 32 ≤ off + n
    · rw [if_pos (hbad.imp_right hwrap.mpr), if_pos hbad]
      exact ⟨rfl, rfl⟩
    · rw [if_neg fun hw => hbad (hw.imp_right hwrap.mp), if_neg hbad]
      have hsum : uint (off + n) = off + n := Nat.mod_eq_of_lt (by omega)
      have hle : off ≤ (dinode s inum).size := by omega
      rw [hsum]
      generalize hm : (if (dinode s inum).size < off + n then (dinode s inum).size - off else n) = m
      have hm' : m = min n ((dinode s inum).size - off) := by
        rw [← hm]
        split <;> omega
      have hpart : content s (dinode s inum) off m = ((files s inum).data.drop off).take n := by
        have hdata : (files s inum).data = content s (dinode s inum) 0 (dinode s inum).size := rfl
        rw [content_part hle (by omega), hm', hdata, List.take_eq_take_iff]
        simp
      simp only [wp_bind]
      refine wp_post (readLoop_spec h.sound (h.dense inum) (by omega) (Nat.zero_le m) (by omega))
        fun r s' hr => ?_
      rw [hr.1, hr.2, wp_pure, ← hpart, length_content, List.nil_append, Nat.sub_zero]
      exact ⟨rfl, rfl⟩

/-- What `writei` logs: the inode, the bitmap, the indirect block, and the blocks it writes to. -/
def WriteLog (s : Disk) (inum : ℕ) (d : Dinode) (off len : ℕ) (c : ℕ) : Prop :=
  Map c ∨ c = IBLOCK inum ∨ c = d.addrs NDIRECT ∨
    ∃ n, off / BSIZE ≤ n ∧ n * BSIZE < off + len ∧ c = blockAddr s d n

/-- The inode is `d` after `writei`, which returns `r`. -/
structure Written (devsw : ℕ → Option (List UInt8 → ℤ)) (s s' : Disk) (inum off : ℕ)
    (src : List UInt8) (r : ℤ) (d : Dinode) : Prop where
  ret : (r, file s' d) = (files s inum).write devsw off src
  updated : Updated s s' inum d
  dense : Dense s' d d.size
  logs : Logs s s' (WriteLog s' inum d off src.length)

theorem Written.refl {devsw : ℕ → Option (List UInt8 → ℤ)} {r : ℤ} (h : Consistent s)
    (hret : (r, files s inum) = (files s inum).write devsw off src) :
    Written devsw s s inum off src r (dinode s inum) :=
  ⟨hret, .refl h.sound, h.dense inum, .refl s⟩

/-- The bytes were written within the old content. -/
theorem Stored.within {devsw : ℕ → Option (List UInt8 → ℤ)} {r : ℕ × Dinode}
    (hst : Stored s s' (dinode s) inum (dinode s inum) r.2 off src (dinode s inum).size)
    (hoff : off ≤ (dinode s inum).size) (hr : r.1 = off + src.length)
    (hno : ¬(0 < src.length ∧ r.2.size < r.1))
    (hret : (files s inum).write devsw off src = ((src.length : ℤ), { files s inum with
      data := (files s inum).data.take off ++ src ++
        (files s inum).data.drop (off + src.length) })) :
    Written devsw s s' inum off src src.length r.2 := by
  have hsize : r.2.size = (dinode s inum).size := by rw [hst.info]
  have hle : off + src.length ≤ (dinode s inum).size := by omega
  have hd := hst.same hle
  have hmax : max (dinode s inum).size (off + src.length) = (dinode s inum).size :=
    Nat.max_eq_left hle
  have hcontent := hst.content_eq hoff
  have hdense := hst.dense
  rw [hmax] at hcontent hdense
  have hsound := hst.sound
  rw [hd] at hcontent hdense hsound ⊢
  rw [Function.update_eq_self] at hsound
  refine ⟨?_, .of_keep hsound hst.keep, hdense, hst.logs.mono fun c hc => ?_⟩
  · rw [hret]
    unfold file
    rw [hcontent]
    rfl
  · rw [hd] at hc
    rcases hc with hc | ⟨-, hc⟩ | hc
    · exact Or.inl hc
    · exact Or.inr (Or.inr (Or.inl hc))
    · exact Or.inr (Or.inr (Or.inr hc))

omit sb in
theorem slot_of_addrs (h : d'.addrs = d.addrs) : slot s d' = slot s d := by
  unfold slot
  rw [h]

/-- The inode's other fields do not matter to the bitmap. -/
theorem Sound.of_addrs (h : Sound s (Function.update D inum d)) (ha : d'.addrs = d.addrs)
    (hd : d'.Fits) : Sound s (Function.update D inum d') := by
  have htab : table s (Function.update D inum d') = table s (Function.update D inum d) := by
    funext x
    unfold table
    by_cases hx : x.1 = inum
    · rw [hx, Function.update_self, Function.update_self, slot_of_addrs ha]
    · rw [Function.update_of_ne hx, Function.update_of_ne hx]
  refine ⟨?_, h.reserved, fun i => ?_⟩
  · rw [htab]
    exact h.exact
  · by_cases hi : i = inum
    · rw [hi, Function.update_self]
      exact hd
    · have := h.fits i
      rwa [Function.update_of_ne hi] at this ⊢

/-- What inodes refer to is left alone by `iupdate`. -/
theorem Sound.slot_iupdate (h : Sound s D) (hin : inum < sb.ninodes) (i : ℕ) :
    slot (s.iupdate inum d) (D i) = slot s (D i) :=
  slot_eq (fun _ => h.block_iupdate hin) i

theorem Sound.byteAt_iupdate (h : Sound s D) (hin : inum < sb.ninodes) (i x : ℕ) :
    byteAt (s.iupdate inum d) (D i) x = byteAt s (D i) x := by
  unfold byteAt blockAddr
  rw [h.slot_iupdate hin]
  split
  · rfl
  · rename_i h0
    exact congrFun (h.block_iupdate (x := (i, slotOf (x / BSIZE))) hin h0) _

/-- The bytes were written over the end of the old content. -/
theorem Stored.grown {devsw : ℕ → Option (List UInt8 → ℤ)} {r : ℕ × Dinode} (h : Consistent s)
    (hst : Stored s s' (dinode s) inum (dinode s inum) r.2 off src (dinode s inum).size)
    (hin : inum < sb.ninodes) (hoff : off ≤ (dinode s inum).size) (hr : r.1 = off + src.length)
    (hgrow : r.2.size < r.1)
    (hret : (files s inum).write devsw off src = ((src.length : ℤ), { files s inum with
      data := (files s inum).data.take off ++ src ++
        (files s inum).data.drop (off + src.length) })) :
    Written devsw s (s'.iupdate inum { r.2 with size := r.1 }) inum off src src.length
      { r.2 with size := r.1 } := by
  have hsize : r.2.size = (dinode s inum).size := by rw [hst.info]
  have hmax : max (dinode s inum).size (off + src.length) = r.1 := by
    rw [hr]
    exact Nat.max_eq_right (by omega)
  have hcontent := hst.content_eq hoff
  have hdense := hst.dense
  have hfits := hst.sound.fits inum
  rw [hmax] at hcontent hdense
  rw [Function.update_self] at hfits
  set d' : Dinode := { r.2 with size := r.1 } with hd'
  have hfits' : d'.Fits := ⟨hfits.type, hfits.major, hfits.minor, hfits.nlink,
    Nat.lt_of_le_of_lt hdense.le (by decide), hfits.addrs, hfits.rest⟩
  have hs' : Sound s' (Function.update (dinode s) inum d') := hst.sound.of_addrs rfl hfits'
  have hslot : slot (s'.iupdate inum d') d' = slot s' r.2 := by
    have := hs'.slot_iupdate (d := d') hin inum
    rw [Function.update_self] at this
    rw [this]
    exact slot_of_addrs rfl
  have hbyte : ∀ x, byteAt (s'.iupdate inum d') d' x = byteAt s' r.2 x := fun x => by
    have := hs'.byteAt_iupdate (d := d') hin inum x
    rw [Function.update_self] at this
    rw [this]
    have haddrs : slot s' d' = slot s' r.2 := slot_of_addrs rfl
    unfold byteAt blockAddr
    rw [haddrs]
  have haddr : blockAddr (s'.iupdate inum d') d' = blockAddr s' r.2 := by
    funext n
    unfold blockAddr
    rw [hslot]
  refine ⟨?_, .of_iupdate h.sound hin hs' hst.keep, ⟨fun n hn => ?_, hdense.indirect, hdense.le⟩,
    (hst.logs.mono fun c hc => ?_).trans (.log _ (Or.inr (Or.inl rfl))) fun c hc => hc⟩
  · rw [hret]
    unfold file
    rw [content_congr hbyte, hcontent, hd', hst.info]
    rfl
  · rw [haddr]
    exact hdense.block n hn
  · unfold WriteLog
    rw [haddr]
    rcases hc with hc | ⟨-, hc⟩ | hc
    · exact Or.inl hc
    · exact Or.inr (Or.inr (Or.inl hc))
    · exact Or.inr (Or.inr (Or.inr hc))

/-- The bytes were written, and then `log_write` of the inode panics. -/
theorem Broken.of_stored {inum : ℕ} {e : Panic} (h : Stored s s' D inum d d' off src z)
    (he : s'.NoLog e) : Broken s d (src.length / BSIZE + 2) e s' := by
  refine ⟨d'.addrs NDIRECT, (List.range' (off / BSIZE) (src.length / BSIZE + 2)).map
    (blockAddr s' d'), h.kept, ?_, h.logs.mono fun c hc => ?_, Or.inl he⟩
  · rw [List.length_map, List.length_range']
  · rcases hc with hc | hc | ⟨n, hn, hlt, rfl⟩
    · exact Or.inl hc
    · exact Or.inr (Or.inl hc.2)
    · refine Or.inr (Or.inr (List.mem_map_of_mem (List.mem_range'_1.mpr ⟨hn, ?_⟩)))
      unfold BSIZE at *
      omega

theorem writei_spec {devsw : ℕ → Option (List UInt8 → ℤ)} (h : Consistent s)
    (hin : inum < sb.ninodes) (hoff : off < 2 ^ 32) (hsrc : src.length < 2 ^ 32) :
    wp (writei devsw inum (dinode s inum) off src)
      (fun r s' => Written devsw s s' inum off src r.1 r.2)
      (Broken s (dinode s inum) (src.length / BSIZE + 2)) s := by
  have hlen : (files s inum).data.length = (dinode s inum).size := length_content _ _ _ _
  have htype : (files s inum).type = (dinode s inum).type := rfl
  have hmajor : (files s inum).major = (dinode s inum).major := rfl
  unfold writei
  by_cases hdev : (dinode s inum).type = T_DEV
  · rw [if_pos hdev]
    by_cases hmaj : (dinode s inum).isDev
    · rw [if_pos hmaj]
      cases hsw : devsw (dinode s inum).major with
      | none =>
        refine .refl h ?_
        unfold File.write
        rw [htype, hmajor, if_pos hdev, if_pos ((isDev_iff _).mp hmaj), hsw]
        rfl
      | some write =>
        refine .refl h ?_
        unfold File.write
        rw [htype, hmajor, if_pos hdev, if_pos ((isDev_iff _).mp hmaj), hsw]
        rfl
    · rw [if_neg hmaj]
      refine .refl h ?_
      unfold File.write
      rw [htype, hmajor, if_pos hdev, if_neg fun hlt => hmaj ((isDev_iff _).mpr hlt)]
  · rw [if_neg hdev]
    have hsize := (h.dense inum).le
    have hmax : MAXFILE * BSIZE < 2 ^ 32 := by decide
    have hwrap : uint (off + src.length) < off ↔ 2 ^ 32 ≤ off + src.length := by
      unfold uint
      omega
    -- the two checks of the code are the one of the specification
    by_cases hbad : (dinode s inum).size < off ∨ MAXFILE * BSIZE < off + src.length
    · have hret : ((-1 : ℤ), files s inum) = (files s inum).write devsw off src := by
        unfold File.write
        rw [htype, hlen, if_neg hdev, if_pos hbad]
      by_cases hbad' : (dinode s inum).size < off ∨ 2 ^ 32 ≤ off + src.length
      · rw [if_pos (hbad'.imp_right hwrap.mpr)]
        exact .refl h hret
      · have hsum : uint (off + src.length) = off + src.length := Nat.mod_eq_of_lt (by omega)
        rw [if_neg fun hw => hbad' (hw.imp_right hwrap.mp), hsum, if_pos (by omega)]
        exact .refl h hret
    · have hsum : uint (off + src.length) = off + src.length := Nat.mod_eq_of_lt (by omega)
      have hsound : Sound s (Function.update (dinode s) inum (dinode s inum)) := by
        rw [Function.update_eq_self]
        exact h.sound
      have hgo : ¬((dinode s inum).size < off ∨ uint (off + src.length) < off) := by omega
      have hfit : ¬MAXFILE * BSIZE < off + src.length := fun hw => hbad (Or.inr hw)
      have hblocks : (off + (src.length - 0)) / BSIZE - off / BSIZE + 1 ≤ src.length / BSIZE + 2 := by
        unfold BSIZE
        omega
      rw [if_neg hgo, hsum, if_neg hfit]
      simp only [wp_bind]
      refine wp_mono (writeLoop_spec hsound (h.dense inum) (by omega) (by omega) (Nat.zero_le _)
        (by omega)) (fun r s₁ hr => ?_) fun e s₁ he => he.2.mono hblocks
      obtain ⟨hr1, hst⟩ := hr
      rw [Nat.sub_zero] at hr1
      rw [List.drop_zero] at hst
      have hwrite : (files s inum).write devsw off src = ((src.length : ℤ), { files s inum with
          data := (files s inum).data.take off ++ src ++
            (files s inum).data.drop (off + src.length) }) := by
        unfold File.write
        rw [htype, hlen, if_neg hdev, if_neg hbad]
        rfl
      by_cases hgrow : 0 < src.length ∧ r.2.size < r.1
      · rw [if_pos hgrow]
        simp only [wp_bind, wp_pure]
        exact wp_iupdate (hst.grown h hin (by omega) hr1 hgrow.2 hwrite) fun e he => .of_stored hst he
      · rw [if_neg hgrow, wp_pure]
        exact hst.within (by omega) hr1 hgrow hwrite

/-! ## One inode changes -/

section Change

variable {s'' : Disk} {inum : ℕ}

theorem Updated.trans (h : Updated s s' inum d) (h' : Updated s' s'' inum d') :
    Updated s s'' inum d' where
  sound := h'.sound
  dinodes := by rw [h'.dinodes, h.dinodes, Function.update_idem]
  other i hi k hk := by
    have hs := h'.other i hi k
    rw [h.dinode_ne hi, h.slot_eq hi] at hs
    exact (hs hk).trans (h.other i hi k hk)

/-- One inode has changed. -/
theorem Consistent.updated (h : Consistent s) (hu : Updated s s' inum d) (hd : Dense s' d d.size)
    (hfree : d.type = 0 → d.size = 0) :
    Consistent s' ∧ files s' = Function.update (files s) inum (file s' d) := by
  refine ⟨⟨hu.sound, fun i => ?_, fun i => ?_⟩, funext fun i => ?_⟩
  · rcases eq_or_ne i inum with rfl | hi
    · rwa [hu.dinode_self]
    · have := hu.dense hi (h.dense i)
      rwa [hu.dinode_ne hi] at this ⊢
  · rcases eq_or_ne i inum with rfl | hi
    · rwa [hu.dinode_self]
    · rw [hu.dinode_ne hi]
      exact h.free i
  · rcases eq_or_ne i inum with rfl | hi
    · rw [Function.update_self, files, hu.dinode_self]
    · rw [Function.update_of_ne hi]
      have hbyte : content s' (dinode s' i) 0 (dinode s i).size =
          content s (dinode s i) 0 (dinode s i).size := content_congr (hu.byteAt_eq hi)
      rw [hu.dinode_ne hi] at hbyte
      unfold files file
      rw [hu.dinode_ne hi, hbyte]

/-- The inode is written with the same blocks. -/
theorem Consistent.iset (h : Consistent s) (hin : inum < sb.ninodes) (hd : d.Fits)
    (ha : d.addrs = (dinode s inum).addrs) (hsize : d.size = (dinode s inum).size) :
    Updated s (s.iupdate inum d) inum d ∧ Dense (s.iupdate inum d) d d.size ∧
      content (s.iupdate inum d) d 0 d.size = content s (dinode s inum) 0 (dinode s inum).size := by
  have hs : Sound s (Function.update (dinode s) inum d) := by
    have hself : Sound s (Function.update (dinode s) inum (dinode s inum)) := by
      rw [Function.update_eq_self]
      exact h.sound
    exact hself.of_addrs ha hd
  have hslot : slot (s.iupdate inum d) d = slot s (dinode s inum) := by
    have := hs.slot_iupdate (d := d) hin inum
    rw [Function.update_self] at this
    rw [this, slot_of_addrs ha]
  have hbyte : ∀ x, byteAt (s.iupdate inum d) d x = byteAt s (dinode s inum) x := fun x => by
    have := hs.byteAt_iupdate (d := d) hin inum x
    rw [Function.update_self] at this
    rw [this]
    unfold byteAt blockAddr
    rw [slot_of_addrs ha]
  have hdense := h.dense inum
  refine ⟨.of_iupdate h.sound hin hs (.refl s _ _), ⟨fun n hn => ?_, ?_, ?_⟩, ?_⟩
  · unfold blockAddr
    rw [hslot, hsize]
    exact hdense.block n hn
  · rw [ha, hsize]
    exact hdense.indirect
  · rw [hsize]
    exact hdense.le
  · rw [hsize, content_congr hbyte]

/-- A free inode has no blocks. -/
theorem Consistent.addrs_free (h : Consistent s) (h0 : (dinode s i).type = 0) :
    (dinode s i).addrs = fun _ => 0 := by
  have hdense := h.dense i
  rw [h.free i h0] at hdense
  funext k
  rcases Nat.lt_trichotomy k NDIRECT with hk | hk | hk
  · by_contra hne
    have hk' : k < MAXFILE := Nat.lt_of_lt_of_le hk (Nat.le_add_right _ _)
    refine Nat.not_lt_zero _ ((hdense.block k hk').mp ?_)
    unfold blockAddr slotOf
    rwa [if_pos hk, slot_addrs (Nat.le_of_lt hk)]
  · rw [hk]
    by_contra hne
    exact Nat.not_lt_zero _ (hdense.indirect.mp hne)
  · exact (h.sound.fits i).rest k hk

theorem lt_of_mem_inums (hi : i ∈ inums) : i < sb.ninodes := by
  have := List.mem_range'_1.mp hi
  omega

theorem iallocLoop_spec {type : ℕ} {l : List ℕ} (hl : ∀ i ∈ l, i < sb.ninodes) :
    wp (iallocLoop type l)
      (fun r s' => (l.find? fun i => (files s i).type = 0) = some r ∧
        s' = s.iupdate r { type := type })
      (fun e s' => e = .ialloc ∧ s' = s ∧ (∀ i ∈ l, (files s i).type ≠ 0) ∨
        Refused s (fun _ => False) e s') s := by
  induction l with
  | nil => exact Or.inl ⟨rfl, rfl, fun i hi => absurd hi List.not_mem_nil⟩
  | cons i l ih =>
    have hd : Dinode.read (s.block (IBLOCK i)) (dinodeOff i) = dinode s i :=
      (if_pos (hl i List.mem_cons_self)).symm
    unfold iallocLoop
    simp only [bread, wp_bind, wp_get, wp_pure]
    rw [hd]
    split
    · rename_i h0
      simp only [wp_bind, wp_pure]
      exact wp_log_write ⟨List.find?_cons_of_pos (decide_eq_true h0), rfl⟩ fun e he =>
        Or.inr ⟨.refl s, he⟩
    · rename_i h0
      refine wp_mono (ih fun j hj => hl j (List.mem_cons_of_mem i hj)) (fun r s' hr => ?_)
        fun e s' he => ?_
      · have hneg : ¬decide ((files s i).type = 0) = true := fun e => h0 (of_decide_eq_true e)
        rw [List.find?_cons_of_neg (p := fun i => decide ((files s i).type = 0)) hneg]
        exact hr
      · refine he.imp_left fun he => ⟨he.1, he.2.1, fun j hj => ?_⟩
        rcases List.mem_cons.mp hj with rfl | hj
        · exact h0
        · exact he.2.2 j hj

omit sb in
theorem dense_truncated (s : Disk) (d : Dinode) : Dense s d.truncated d.truncated.size := by
  refine ⟨fun n _ => ⟨fun hn => absurd ?_ hn, fun hn => absurd hn (Nat.not_lt_zero _)⟩,
    ⟨fun hn => absurd rfl hn, fun hn => absurd hn (Nat.not_lt_zero _)⟩, Nat.zero_le _⟩
  unfold blockAddr slot Dinode.truncated
  simp

omit sb in
theorem type_write (devsw : ℕ → Option (List UInt8 → ℤ)) (f : File) (off : ℕ) (src : List UInt8) :
    (f.write devsw off src).2.type = f.type := by
  unfold File.write
  split <;> split <;> rfl

end Change

end OsLabs.Files
