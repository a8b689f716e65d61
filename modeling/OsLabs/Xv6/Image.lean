import OsLabs.Xv6.Growing

/-!
# A process image under construction

`exec` and `userinit` build a new directory next to everything that exists already. While they
do, the directory is an `Image`: its first pages are present and writable, each in a frame of its
own, and nothing is mapped beyond them. So whatever is loaded into it reaches no frame that
anybody else holds.

* `setupkvm_image`, `allocuvm_image`, `clearpteu_image`, `inituvm_image`: the steps that build
  an image;
* `loaduvm_image`, `copyout_image`: the steps that fill it change no other frame.
-/

namespace OsLabs.Xv6

open StateError Ledger

/-- A new directory with its first `n` pages mapped, beside a ledger `r` of everything else. -/
structure Image (r : Ledger ℕ) (d : Pgdir) (n : ℕ) : Prop where
  low : ∀ v < n, (d.ent v).P = true ∧ (d.ent v).W = true ∧ (d.ent v).CoW = false ∧
    (d.ent v).LAZY = false
  high : ∀ v, n ≤ v → v < UPAGES → d.ent v = Pte.zero
  alone : ∀ v < UPAGES, (d.ent v).P = true → refs (r + d.holds) (d.ent v).ppn = 1
  kernel : d.KernelOk

theorem Pgdir.add_holds (r : Ledger ℕ) (d : Pgdir) :
    r + d.holds = r + excl d.frame + (d.tables + d.uses) := by
  unfold holds
  abel

namespace Image

variable {r : Ledger ℕ} {d : Pgdir} {n : ℕ}

/-- The frames of the image are nobody else's. -/
theorem unheld (h : Image r d n) {v : ℕ} (hv : v < UPAGES) (hP : (d.ent v).P = true) :
    r (d.ent v).ppn = 0 := by
  have h₁ := h.alone v hv hP
  have h₂ := Pgdir.refs_uses_pos hv hP
  rw [← refs_eq_zero]
  simp only [Pgdir.holds, refs_add] at h₁
  omega

/-- An entry that is there at all is a page of the image. -/
theorem keeps_fill (h : Image r d n) {κ : Type} {s : Phys κ} {v : ℕ} (hv : v < UPAGES)
    (hP : (d.ent v).P = true) (p : Page) : Keeps r s (s.fill (d.ent v).ppn p) :=
  Keeps.fill p (h.unheld hv hP)

/-- An image stays one when others give frames back. -/
theorem weaken {r' : Ledger ℕ} (h : Image (r + r') d n) : Image r d n :=
  ⟨h.low, h.high, fun v hv hP => by
    have h₁ := h.alone v hv hP
    have h₂ := Pgdir.refs_uses_pos hv hP
    simp only [Pgdir.holds, refs_add] at h₁ ⊢
    omega, h.kernel⟩

/-- Further pages in new frames. -/
theorem grown {d' : Pgdir} {m : ℕ} (h : Image r d n) (hg : d.Grown d' n m) (hnm : n ≤ m)
    (hm : m ≤ UPAGES) (hgrow : Grow (r + d.holds) (r + d'.holds))
    (hnew : ∀ w, n ≤ w → w < m → (r + d.holds) (d'.ent w).ppn = 0) : Image r d' m := by
  refine ⟨fun v hv => ?_, fun v h₁ h₂ => ?_, fun v hv hP => ?_, fun v hv => ?_⟩
  · by_cases hvn : v < n
    · rw [hg.out v (Or.inl hvn)]
      exact h.low v hvn
    · simp [hg.flags v (by omega) hv]
  · rw [hg.out v (Or.inr h₁)]
    exact h.high v (by omega) h₂
  · have h₁ := Pgdir.refs_uses_pos hv hP
    have h₂ := hgrow (d'.ent v).ppn
    have h₃ : refs (r + d.holds) (d'.ent v).ppn ≤ 1 := by
      by_cases hvn : n ≤ v ∧ v < m
      · rw [refs_eq_zero.mpr (hnew v hvn.1 hvn.2)]
        exact Nat.zero_le _
      · have he := hg.out v (by omega)
        rw [he] at hP ⊢
        exact le_of_eq (h.alone v hv hP)
    have h₄ : refs d'.uses (d'.ent v).ppn ≤ refs (r + d'.holds) (d'.ent v).ppn := by
      simp only [Pgdir.holds, refs_add]
      omega
    omega
  · rw [hg.out v (Or.inr (by omega))]
    exact h.kernel v hv

end Image

section Build

variable {κ : Type} [Kalloc κ] [Layout] [LawfulKalloc κ]
variable {dom : ℕ → Prop} {s : Phys κ} {r : Ledger ℕ} {d : Pgdir}

theorem setupkvm_image (ha : Acct dom s.kmem r) :
    wp setupkvm (fun res s' => match res with
      | none => Acct dom s'.kmem r ∧ Keeps r s s' ∧ s'.oom = true ∧ s.free.length < 65
      | some d => Acct dom s'.kmem (r + d.holds) ∧ Grow r (r + d.holds) ∧ Keeps r s s' ∧
          s'.oom = s.oom ∧ Image r d 0 ∧ s.free.length = s'.free.length + 65 ∧
          ∀ i, d.has i ↔ i ∈ kernelTables)
      (fun _ _ => False) s := by
  refine wp_post (setupkvm_spec ha) fun res s' h => ?_
  cases res with
  | none => exact h
  | some d =>
    obtain ⟨ha', hg, hm, ho, hz, hk, hl⟩ := h
    refine ⟨ha', hg, .of_mem_eq hm, ho, ⟨fun v hv => by omega, fun v _ hv => hz v hv,
      fun v hv hP => ?_, hk⟩, hl⟩
    rw [hz v hv] at hP
    cases hP

theorem allocuvm_image {oldsz newsz : ℕ} (hi : Image r d (pages oldsz))
    (ha : Acct dom s.kmem (r + d.holds)) :
    wp (allocuvm d oldsz newsz) (fun res s' => Acct dom s'.kmem (r + res.2.holds) ∧
      Keeps r s s' ∧ (s'.oom = s.oom ∨ s'.oom = true) ∧
      (res.1 ≠ 0 → newsz < KERNBASE ∧ res.1 = max oldsz newsz ∧ Image r res.2 (pages res.1)))
      (fun _ _ => False) s := by
  rw [Pgdir.add_holds] at ha
  refine wp_mono (allocuvm_spec ha) (fun res s' h => ?_) fun e _ he => ?_
  · obtain ⟨ha', hg, h⟩ := h
    rcases h with ⟨-, rfl, rfl⟩ | ⟨hnew, hlt, rfl, rfl⟩ | ⟨hnew, hle, hgrew⟩
    · exact ⟨by rwa [Pgdir.add_holds], .refl _ _, Or.inl rfl, fun h => absurd rfl h⟩
    · exact ⟨by rwa [Pgdir.add_holds], .refl _ _, Or.inl rfl,
        fun _ => ⟨hnew, (max_eq_left (le_of_lt hlt)).symm, hi⟩⟩
    · rcases hgrew with ⟨hres, ho, hgr, hfresh, hk, -⟩ | ⟨hres, ho, hun, hk, -⟩
      · rw [← hgr.frame, ← Pgdir.add_holds] at ha'
        refine ⟨ha', hk.left.left, Or.inl ho, fun _ => ⟨hnew, ?_, ?_⟩⟩
        · rw [hres, max_eq_right hle]
        · rw [hres]
          refine hi.grown hgr (pages_mono hle) (pages_le_UPAGES (le_of_lt hnew)) ?_ fun w h₁ h₂ => ?_
          · rwa [Pgdir.add_holds, Pgdir.add_holds, hgr.frame]
          · rw [Pgdir.add_holds]
            exact (hfresh w h₁ h₂).1
      · rw [← hun.frame, ← Pgdir.add_holds] at ha'
        exact ⟨ha', hk.left.left, Or.inr ho, fun h => absurd hres h⟩
  · obtain ⟨-, hnew, w, h₁, h₂, hP⟩ := he
    rw [hi.high w h₁ (lt_of_lt_of_le h₂ (pages_le_UPAGES (le_of_lt hnew)))] at hP
    cases hP

omit [Kalloc κ] [Layout] [LawfulKalloc κ] in
theorem Pgdir.ent_store_zero {e : Pte} (h : d.has 0) (w : ℕ) :
    (d.store 0 e).ent w = if w = 0 then e else d.ent w := by
  simpa using @Pgdir.ent_store _ 0 _ (Nat.two_pow_pos 32) (by simpa using h) w

/-- With two frames left, `inituvm` maps the initial code. -/
theorem inituvm_image {init : List UInt8} (hi : Image r d 0) (ha : Acct dom s.kmem (r + d.holds))
    (hfree : 2 ≤ s.free.length) (hlen : init.length < PGSIZE) :
    wp (inituvm d init) (fun d' s' => Acct dom s'.kmem (r + d'.holds) ∧ Image r d' 1 ∧
      s'.oom = s.oom ∧ (d'.ent 0).U = true ∧ s'.mem (d'.ent 0).ppn = writeBytes zeroPage 0 init ∧
      s.free.length ≤ s'.free.length + 1025 ∧ ∀ i, d'.has i → d.has i ∨ i = 0)
      (fun _ _ => False) s := by
  unfold inituvm
  rw [if_neg (Nat.not_le.mpr hlen)]
  simp only [wp_bind]
  refine wp_post (LawfulKalloc.kalloc_spec ha) fun res s₁ h₁ => ?_
  cases res with
  | none =>
    have : s.free = [] := h₁.2
    simp [this] at hfree
  | some mem =>
    obtain ⟨hmem, hacct, -, ho₁, hfree₁⟩ := h₁
    have h0 : d.ent 0 = Pte.zero := hi.high 0 (le_refl 0) (by rw [UPAGES_eq]; omega)
    have hl : r + d.holds + shared mem = r + excl d.frame + d.uses + shared mem + d.tables := by
      rw [Pgdir.add_holds]
      abel
    have ha₁ := hacct _ (isClaim_shared mem)
    rw [hl] at ha₁
    simp only [wp_bind, wp_modify, wp_pure]
    refine wp_mono (mappages_page_spec (v := 0) (s := s₁.fill mem zeroPage) (by omega) ha₁
      (by rw [h0]; rfl)) (fun res s₂ h₂ => ?_) fun _ _ h => h.elim
    obtain ⟨ha₂, hg₂, hm₂, hok, hbad⟩ := h₂
    obtain ⟨d', ok⟩ := res
    dsimp only at ha₂ hg₂ hok hbad ⊢
    cases ok with
    | false =>
      have h₁ : s₁.free = [] := (hbad rfl).2.2.1
      have h₂ : s.free = mem :: s₁.free := hfree₁
      simp [h₁, h₂] at hfree
    | true =>
      obtain ⟨ho₂, hlen, d₁, hext, hhas, honly, rfl⟩ := hok rfl
      have hnum := (d₁.store (0 * 4096)
        { W := true, U := true, ppn := mem, P := true }).numTables_le_max
      have hlen' : s.free.length = s₁.free.length + 1 := by
        have : s.free = mem :: s₁.free := hfree₁
        rw [this, List.length_cons]
      have hbound : s.free.length ≤ s₂.free.length + 1025 := by
        have hfill : (s₁.fill mem zeroPage).free = s₁.free := rfl
        rw [hfill] at hlen
        omega
      generalize he : ({ P := true, W := true, U := true, ppn := mem } : Pte) = e at *
      rw [Nat.zero_mul] at *
      rw [Nat.zero_div] at hhas honly
      have honly' : ∀ i, (d₁.store 0 e).has i → d.has i ∨ i = 0 := fun i hi =>
        honly i ((Pgdir.has_store i).mp hi)
      have hent : ∀ w, (d₁.store 0 e).ent w = if w = 0 then e else d.ent w := fun w => by
        rw [Pgdir.ent_store_zero hhas, hext.ent]
      have huse : (d₁.store 0 e).uses = d.uses + shared mem := by
        have h := Pgdir.uses_replace (d := d) (by rw [UPAGES_eq]; omega) hent
        rw [h0, Pgdir.pteHold_zero, add_zero] at h
        rw [h, ← he, Pgdir.pteHold_of_P rfl]
      have hholds : r + (d₁.store 0 e).holds =
          r + excl d.frame + d.uses + shared mem + (d₁.store 0 e).tables := by
        rw [Pgdir.holds, huse, Pgdir.frame_store, hext.frame]
        abel
      have hgrow : Grow (r + d.holds) (r + (d₁.store 0 e).holds) := by
        rw [hholds]
        refine .trans (.add_claim hmem (isClaim_shared mem)) ?_
        rwa [hl]
      have he0 : (d₁.store 0 e).ent 0 = e := by rw [hent, if_pos rfl]
      have hne : ∀ v, v ≠ 0 → (d₁.store 0 e).ent v = d.ent v := fun v hv => by
        rw [hent, if_neg hv]
      generalize d₁.store 0 e = d' at *
      refine ⟨by rw [hholds]; exact ha₂, ⟨fun v hv => ?_, fun v h₁ h₂ => ?_, fun v hv hP => ?_,
        hi.kernel.congr fun v hv => ?_⟩, ?_, ?_, ?_, ?_, honly'⟩
      · obtain rfl : v = 0 := by omega
        rw [he0, ← he]
        exact ⟨rfl, rfl, rfl, rfl⟩
      · rw [hne v (by omega)]
        exact hi.high v (Nat.zero_le v) h₂
      · by_cases hv0 : v = 0
        · subst hv0
          have h₁ := hgrow (d'.ent 0).ppn
          have h₂ := Pgdir.refs_uses_pos hv hP
          have h₃ : refs (r + d.holds) (d'.ent 0).ppn = 0 := by
            rw [he0, ← he]
            exact refs_eq_zero.mpr hmem
          rw [h₃] at h₁
          simp only [Pgdir.holds, refs_add] at h₁ ⊢
          omega
        · rw [hne v hv0, hi.high v (Nat.zero_le v) hv] at hP
          cases hP
      · refine hne v fun h => ?_
        rw [UPAGES_eq] at hv
        omega
      · exact ho₂.trans ho₁
      · rw [he0, ← he]
      · rw [he0, ← he]
        simp [hm₂]
      · exact hbound

end Build

/-- Building an image gives no frame a second claim. -/
theorem Image.grow {κ : Type} [Kalloc κ] [Layout] [LawfulKalloc κ] {dom : ℕ → Prop} {k : κ}
    {n : ℕ} {r : Ledger ℕ} {d : Pgdir} (h : Image r d n) (ha : Acct dom k (r + d.holds)) :
    Grow r (r + d.holds) := by
  intro f
  by_cases hu : 0 < refs d.uses f
  · obtain ⟨v, hv, hP, rfl⟩ := Pgdir.exists_of_refs_uses_pos hu
    rw [h.alone v hv hP]
    exact le_max_right _ _
  by_cases hx : ((r + d.holds) f).2 = 0
  · -- no claim of the directory itself or of a page table
    have h₁ : (d.tables f).1 = 0 := d.tables_fst f
    have h₂ : (excl d.frame f).1 = 0 := by
      by_cases hf : f = d.frame
      · rw [hf, excl_self]
      · rw [excl_ne hf]
        rfl
    simp only [Pgdir.holds, Pi.add_apply, Prod.snd_add] at hx
    simp only [Pgdir.holds, refs_add]
    simp only [refs] at hu ⊢
    omega
  · have := (LawfulKalloc.exact_of_acct ha).excl_alone f hx
    simp only [refs, this]
    omega

section Fill

variable {κ : Type} {s : Phys κ} {r : Ledger ℕ} {d : Pgdir}

/-- Taking the page at `uva` from the user leaves an image. -/
theorem clearpteu_image {n uva : ℕ} (hi : Image r d n) (hn : n ≤ UPAGES) (huva : uva / 4096 < n) :
    wp (clearpteu d uva) (fun d' s' => Image r d' n ∧ d'.holds = d.holds ∧ s' = s)
      (fun _ _ => False) s := by
  rw [UPAGES_eq] at hn
  have hva : uva < 2 ^ 32 := by omega
  have hP := (hi.low _ huva).1
  have hhas : d.has (uva / 4096 / 1024) := Pgdir.has_of_ent_ne fun e => by simp [e, Pte.zero] at hP
  set e : Pte := { d.ent (uva / 4096) with U := false } with he
  have hent := Pgdir.ent_store (e := e) hva hhas
  have hhold : Pgdir.pteHold e = Pgdir.pteHold (d.ent (uva / 4096)) := rfl
  have huses : (d.store uva e).uses = d.uses := by
    refine Pgdir.uses_congr fun v _ => ?_
    rw [hent]
    split
    · rename_i hv
      rw [hhold, hv]
    · rfl
  have hholds : (d.store uva e).holds = d.holds := by
    rw [Pgdir.holds, Pgdir.holds, huses, Pgdir.tables_store, Pgdir.frame_store]
  unfold clearpteu
  rw [Pgdir.find_of_has hva hhas]
  refine ⟨⟨fun v hv => ?_, fun v h₁ h₂ => ?_, fun v hv hv' => ?_, fun v hv => ?_⟩, hholds, rfl⟩
  · rw [hent]
    split
    · exact hi.low _ huva
    · exact hi.low v hv
  · rw [hent, if_neg (by omega)]
    exact hi.high v h₁ h₂
  · rw [hholds, hent]
    rw [hent] at hv'
    split
    · exact hi.alone _ (by rw [UPAGES_eq]; omega) hP
    · rename_i hne
      rw [if_neg hne] at hv'
      exact hi.alone v hv hv'
  · rw [UPAGES_eq] at hv
    rw [hent, if_neg (by omega)]
    exact hi.kernel v (by rwa [UPAGES_eq])

/-- Loading a segment below the end of the image writes frames of the image only. -/
theorem loaduvmLoop_image {n addr offset sz : ℕ} {ip : Inode} (hi : Image r d n)
    (hn : n ≤ UPAGES) (haddr : addr % PGSIZE = 0) (hsz : addr + sz ≤ n * 4096) :
    ∀ {fuel k : ℕ} {s : Phys κ}, pages sz - k < fuel → k ≤ pages sz →
    wp (loaduvmLoop d addr ip offset sz fuel (k * 4096))
      (fun _ s' => s'.kmem = s.kmem ∧ s'.oom = s.oom ∧ Keeps r s s') (fun _ _ => False) s := by
  rw [UPAGES_eq] at hn
  simp only [PGSIZE] at haddr
  intro fuel
  induction fuel with
  | zero => intro k s h; exact absurd h (Nat.not_lt_zero _)
  | succ fuel ih =>
    intro k s hfuel hk
    unfold loaduvmLoop
    by_cases hlt : k * 4096 < sz
    swap
    · rw [if_neg hlt]
      exact ⟨rfl, rfl, .refl _ _⟩
    have hva : uint (addr + k * 4096) = (addr / 4096 + k) * 4096 := by
      simp only [uint]
      omega
    have hv : addr / 4096 + k < n := by omega
    have hP := (hi.low _ hv).1
    have hhas : d.has ((addr / 4096 + k) / 1024) :=
      Pgdir.has_of_ent_ne fun e => by simp [e, Pte.zero] at hP
    have hnext : uint (k * 4096 + PGSIZE) = (k + 1) * 4096 := by
      simp only [uint, PGSIZE]
      omega
    have hup : addr / 4096 + k < UPAGES := by
      rw [UPAGES_eq]
      omega
    rw [if_pos hlt, hva, Pgdir.find_page (by omega) hhas, hnext]
    simp only [wp_bind, wp_modify, wp_ite, wp_pure]
    have hkeep := fun p => hi.keeps_fill (s := s) hup hP p
    refine ⟨fun _ => ⟨rfl, rfl, hkeep _⟩, fun _ => ?_⟩
    have hkp : k + 1 ≤ pages sz := by
      simp only [pages]
      omega
    exact wp_post (ih (by omega) hkp) fun _ s' h => ⟨h.1, h.2.1, (hkeep _).trans h.2.2⟩

theorem loaduvm_image {n addr offset sz : ℕ} {ip : Inode} (hi : Image r d n) (hn : n ≤ UPAGES)
    (haddr : addr % PGSIZE = 0) (hsz : addr + sz ≤ n * 4096) :
    wp (loaduvm d addr ip offset sz)
      (fun _ s' => s'.kmem = s.kmem ∧ s'.oom = s.oom ∧ Keeps r s s') (fun _ _ => False) s := by
  have hpages : pages sz - 0 < loopFuel := by
    rw [UPAGES_eq] at hn
    simp only [pages, loopFuel]
    omega
  have := @loaduvmLoop_image _ _ _ _ _ offset _ ip hi hn haddr hsz _ _ s hpages
    (Nat.zero_le _)
  unfold loaduvm
  rw [if_neg (by simpa using haddr)]
  rwa [Nat.zero_mul] at this

/-- Copying out to an image reaches frames of the image only. A wild address may find no page
table, whose entry `uva2ka` then reads through a null pointer. -/
theorem copyoutLoop_image {n : ℕ} (hi : Image r d n) :
    ∀ {fuel va : ℕ} {buf : List UInt8} {s : Phys κ}, buf.length < fuel → va < 2 ^ 32 →
    wp (copyoutLoop d fuel va buf)
      (fun _ s' => s'.kmem = s.kmem ∧ s'.oom = s.oom ∧ Keeps r s s')
      (fun e _ => e = .nullDeref) s := by
  intro fuel
  induction fuel with
  | zero => intro va buf s h; exact absurd h (Nat.not_lt_zero _)
  | succ fuel ih =>
    intro va buf s hfuel hva
    unfold copyoutLoop
    by_cases hb : buf.length = 0
    · rw [if_pos hb]
      exact ⟨rfl, rfl, .refl _ _⟩
    rw [if_neg hb]
    have hva0 : PGROUNDDOWN va < 2 ^ 32 := by
      simp only [PGROUNDDOWN, PGSIZE]
      omega
    have hpage : PGROUNDDOWN va / 4096 = va / 4096 := by
      simp only [PGROUNDDOWN, PGSIZE]
      omega
    dsimp only
    by_cases hhas : d.has (va / 4096 / 1024)
    swap
    · rw [Pgdir.find_of_not_has hva0 (by rwa [hpage])]
      rfl
    rw [Pgdir.find_of_has hva0 (by rwa [hpage]), hpage]
    dsimp only
    by_cases hP : (d.ent (va / 4096)).P = true
    swap
    · rw [if_pos (by simpa using hP)]
      exact ⟨rfl, rfl, .refl _ _⟩
    rw [if_neg (by simpa using hP)]
    by_cases hU : (d.ent (va / 4096)).U = true
    swap
    · rw [if_pos (by simpa using hU)]
      exact ⟨rfl, rfl, .refl _ _⟩
    rw [if_neg (by simpa using hU)]
    have hv : va / 4096 < UPAGES := by
      by_contra hge
      have := (hi.kernel _ (Nat.le_of_not_lt hge)).1
      rw [hU] at this
      cases this
    simp only [wp_bind, wp_modify]
    have hkeep := fun p => hi.keeps_fill (s := s) hv hP p
    refine wp_post (ih ?_ ?_) fun _ s' h => ⟨h.1, h.2.1, (hkeep _).trans h.2.2⟩
    · rw [List.length_drop]
      have : 0 < PGSIZE - (va - PGROUNDDOWN va) := by
        simp only [PGROUNDDOWN, PGSIZE]
        omega
      omega
    · simp only [uint]
      omega

theorem copyout_image {n va : ℕ} {buf : List UInt8} (hi : Image r d n) (hva : va < 2 ^ 32) :
    wp (copyout d va buf) (fun _ s' => s'.kmem = s.kmem ∧ s'.oom = s.oom ∧ Keeps r s s')
      (fun e _ => e = .nullDeref) s :=
  copyoutLoop_image hi (Nat.lt_succ_self _) hva

end Fill

end OsLabs.Xv6
