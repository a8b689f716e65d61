import OsLabs.Cow.Vm
import OsLabs.Xv6.Boot

/-!
# The copy-on-write kernel

The invariant `Ok` of the copy-on-write kernel: the counts of the allocator are the numbers of
claims, every user page is writable or copy-on-write but not both, a writable page is the only
claim on its frame, no page lies beyond the end of its process, and no directory maps a frame
twice. Every operation keeps it (`Effect.ok`), and `step_spec` says what the operations do and
how they can stop.
-/

namespace OsLabs.Cow

open Xv6 StateError Ledger

/-- An entry below `KERNBASE` whose frame has `n` claims. -/
def entryOk (n : ℕ) (e : Pte) : Prop :=
  e = Pte.zero ∨ e.P = true ∧ e.LAZY = false ∧ e.CoW = !e.W ∧ (e.W = true → n ≤ 1)

theorem entryOk_policy : Policy entryOk where
  zero _ := Or.inl rfl
  fresh e hP hW hC hL := Or.inr ⟨hP, hL, by rw [hC, hW]; rfl, fun _ => le_refl 1⟩
  mono {n m e} h hm := h.imp_right fun ⟨hP, hL, hC, hn⟩ => ⟨hP, hL, hC, fun hW => by
    have := hn hW
    omega⟩

theorem entryOk_protect {n m : ℕ} {e : Pte} (h : entryOk n e) : entryOk m (protect e) := by
  rcases h with rfl | ⟨hP, hL, hC, -⟩
  · exact Or.inl rfl
  · refine Or.inr ⟨by rwa [protect_P], by rwa [protect_LAZY], ?_, fun hW => ?_⟩
    · rw [protect_CoW, protect_W, hC]
      cases e.W <;> rfl
    · rw [protect_W] at hW
      cases hW

theorem entryOk.of_not_W {n m : ℕ} {e : Pte} (h : entryOk n e) (hW : e.W = false) :
    entryOk m e :=
  h.imp_right fun ⟨hP, hL, hC, _⟩ => ⟨hP, hL, hC, fun h => by rw [hW] at h; cases h⟩

section System

variable [Layout]

/-- The copy-on-write tree. -/
def tree : Xv6.Tree Kmem where
  copyuvm := copyuvm
  reload := true
  pgflt := pgflt
  switch := false
  mmap _ _ := return .ret (-1)

/-- What holds of the directories of the processes. -/
structure Dirs (k : Kernel Kmem) : Prop where
  pages : Pages entryOk 0 k
  tight : Tight k
  inj : Injective k

/-- The invariant. -/
structure Ok (k : Kernel Kmem) : Prop extends Dirs k where
  inv : Inv 0 k

/-! ## What the operations do -/

/-- The faults on which the handler kills: the page is not copy-on-write. -/
def kills (d : Pgdir) (va : ℕ) : Prop := check_CoW_bit_set_or_not d va = false

/-- What a user access at `va` of the process `p`, to read or to write `w`, does. -/
inductive AccessEffect (p : ProcPtr) (va : ℕ) (w : Option UInt8) (k : Kernel Kmem) :
    Result → Kernel Kmem → Prop
  | direct {res : Result} {k' : Kernel Kmem} (h : AccessEnd kills p va w 0 k res k') :
      AccessEffect p va w k res k'
  /-- A copy-on-write fault, and the instruction again. -/
  | fault {v : ℕ} {k' : Kernel Kmem} {d d' : Pgdir} {s' : Phys Kmem} {res : Result}
      (hv : va / 4096 = v) (hup : v < UPAGES) (hd : k.pgdir p = some d)
      (hP : (d.ent v).P = true) (hC : (d.ent v).CoW = true)
      (hno : ¬∃ e, d.allows va w.isSome e)
      (hf : FaultEffect d v (0 + k.rest p) k.phys d' s')
      (ha : Balanced InRange s'.kmem (0 + k.rest p + d'.holds))
      (h : AccessEnd kills p va w 1 (k.setMem p s' (k.proc p).sz d'.flush) res k') :
      AccessEffect p va w k res k'

/-- What an operation of the copy-on-write kernel can do. -/
inductive Effect (k : Kernel Kmem) : Op → Result → Kernel Kmem → Prop
  | common {op : Op} {res : Result} {k' : Kernel Kmem} (h : CommonEffect 0 k op res k') :
      Effect k op res k'
  | fork {p : ProcPtr} {d : Pgdir} {res : Result} {k' : Kernel Kmem}
      (hp : (k.proc p).state = .RUNNING) (hd : k.pgdir p = some d)
      (h : ForkEffect (CopyEffect d (k.proc p).sz) true 0 k p res k') : Effect k (.fork p) res k'
  | load {p : ProcPtr} {va : ℕ} {res : Result} {k' : Kernel Kmem}
      (hp : (k.proc p).state = .RUNNING) (h : AccessEffect p (uint va) none k res k') :
      Effect k (.load p va) res k'
  | store {p : ProcPtr} {va : ℕ} {b : UInt8} {res : Result} {k' : Kernel Kmem}
      (hp : (k.proc p).state = .RUNNING) (h : AccessEffect p (uint va) (some b) k res k') :
      Effect k (.store p va b) res k'
  | mmap {p : ProcPtr} {n : ℤ} : Effect k (.mmap p n) (.ret (-1)) k

/-- How an access can stop: there was no frame for a copy, or the page is not the user's. -/
def AccessStop (k : Kernel Kmem) (p : ProcPtr) (va : ℕ) (e : Panic) (k' : Kernel Kmem) : Prop :=
  e = .nullDeref ∧ k'.phys.oom = true ∧ k.phys.free = [] ∨
    (e = .nullDeref ∨ e = .initExiting) ∧ ∃ d, k.pgdir p = some d ∧ ¬∃ e, d.allows va false e

/-- How an operation can stop. -/
def Stop (k : Kernel Kmem) (op : Op) (e : Panic) (k' : Kernel Kmem) : Prop :=
  match op with
  | .fork p => k.proc.first (·.state = .UNUSED) ≠ none ∧ (e = .pidOverflow ∧ k.nextpid = INT_MAX ∨
      (e = .copyuvmExist ∨ e = .copyuvmPresent) ∧
        ∃ d, k.pgdir p = some d ∧ ∃ w < pages (k.proc p).sz, (d.ent w).P = false)
  | .load p va => AccessStop k p (uint va) e k'
  | .store p va _ => AccessStop k p (uint va) e k'
  | op => CommonStop k op e

variable {k k' : Kernel Kmem} {p : ProcPtr}

/-- After a fault the accounts are in order, and the entry is writable. -/
theorem Ok.fault (h : Ok k) (hl : k.live p) {d d' : Pgdir} {v : ℕ} {s' : Phys Kmem}
    (hd : k.pgdir p = some d) (hv : v < UPAGES) (hP : (d.ent v).P = true)
    (hf : FaultEffect d v (0 + k.rest p) k.phys d' s')
    (ha : Balanced InRange s'.kmem (0 + k.rest p + d'.holds)) :
    Ok (k.setMem p s' (k.proc p).sz d'.flush) := by
  obtain ⟨-, hsz, hker⟩ := h.inv.of_live hl hd
  have htot : 0 + k.total = 0 + k.rest p + d.holds := by
    rw [add_assoc, ← Kernel.total_eq_rest hl hd]
  have hold := h.pages p d hl hd
  have hvlt : v < Xv6.pages (k.proc p).sz := by
    by_contra hge
    rw [h.tight p d hl hd v (Nat.le_of_not_lt hge) hv] at hP
    cases hP
  -- the parts that do not depend on which entry replaces the old one
  have hg : Grow (0 + k.total) (0 + k.rest p + d'.holds) := by
    rw [htot]
    exact hf.grow hv hP
  have hfin : ∀ {e : Pte}, Replaced d d' v e → e.P = true →
      entryOk (refs (0 + k.rest p + d'.holds) e.ppn) e →
      (∀ w < UPAGES, w ≠ v → (d.ent w).P = true → (d.ent w).ppn ≠ e.ppn) →
      Ok (k.setMem p s' (k.proc p).sz d'.flush) := by
    intro e hr hPe hok hinj
    refine ⟨⟨h.pages.setMem entryOk_policy hl hg fun w hw => ?_,
      h.tight.setMem fun w hge hw => ?_, h.inj.setMem ?_⟩,
      h.inv.setMem hl ha ⟨hsz, hker.congr fun w hw => ?_⟩⟩
    rotate_right
    · rw [Pgdir.ent_flush, hr.ent, if_neg (by omega)]
    · rw [Pgdir.ent_flush, hr.ent]
      split
      · exact hok
      · refine entryOk_policy.mono (hold w hw) (hg _)
    · rw [Pgdir.ent_flush, hr.ent, if_neg (by omega)]
      exact h.tight p d hl hd w hge hw
    · have hcase : ∀ w < UPAGES, (d'.ent w).P = true → (d'.ent w).ppn = e.ppn → w = v := by
        intro w hw hPw he
        by_contra hne
        rw [hr.ent, if_neg hne] at hPw he
        exact hinj w hw hne hPw he
      intro w₁ w₂ hw₁ hw₂ hP₁ hP₂ he
      rw [Pgdir.ent_flush] at hP₁ hP₂
      rw [Pgdir.ent_flush, Pgdir.ent_flush] at he
      by_cases h₁ : w₁ = v
      · rw [hr.ent w₁, if_pos h₁] at he
        rw [h₁, hcase w₂ hw₂ hP₂ he.symm]
      by_cases h₂ : w₂ = v
      · rw [hr.ent w₂, if_pos h₂] at he
        rw [h₂, hcase w₁ hw₁ hP₁ he]
      rw [hr.ent, if_neg h₁] at hP₁ he
      rw [hr.ent, if_neg h₂] at hP₂ he
      exact h.inj p d hl hd w₁ w₂ hw₁ hw₂ hP₁ hP₂ he
  cases hf with
  | sole h1 hr =>
    refine hfin hr hP ?_ fun w hw hne hPw he => ?_
    · rcases hold v hv with hz | ⟨-, hL, -, -⟩
      · rw [hz] at hP
        cases hP
      · exact Or.inr ⟨hP, hL, rfl, fun _ => by rw [replaced_holds_sole hv hr]; exact h1⟩
    · exact hne (h.inj p d hl hd w v hw hv hPw hP he)
  | @copied mem _ h2 hmem hr hc hk ho =>
    refine hfin hr rfl (Or.inr ⟨rfl, rfl, rfl, fun _ => ?_⟩) fun w hw hne hPw he => ?_
    · have := hg mem
      rw [htot, refs_eq_zero.mpr hmem] at this
      exact this
    · have := held_of_present (x := 0) hl hd hw hPw
      rw [htot, he, refs_eq_zero.mpr hmem] at this
      exact absurd this (Nat.lt_irrefl 0)

/-! ## User accesses -/

omit [Layout] in
theorem check_eq {d : Pgdir} {va v : ℕ} (hva : va < 2 ^ 32) (hv : va / 4096 = v) {e : Pte}
    (hf : d.find va = some e) : check_CoW_bit_set_or_not d va = (d.ent v).CoW := by
  rw [check_CoW_bit_set_or_not, hf, ← hv, (Pgdir.find_eq_some hva hf).2]

/-- A page on which the handler kills is not one the user may read. -/
theorem Ok.not_allows (h : Ok k) (hl : k.live p) {d : Pgdir} (hd : k.pgdir p = some d) {va : ℕ}
    (hva : va < 2 ^ 32) {write : Bool} (hno : ¬∃ e, d.allows va write e) (hk : kills d va) :
    ¬∃ e, d.allows va false e := by
  obtain ⟨-, -, hker⟩ := h.inv.of_live hl hd
  generalize hv : va / 4096 = v
  rw [Pgdir.exists_allows hva hv] at hno ⊢
  intro hp
  have hP : (d.ent v).P = true := by
    simp only [Pte.permits, Bool.and_eq_true] at hp
    exact hp.1.1
  have hhas : d.has (v / 1024) := Pgdir.has_of_ent_ne fun e => by simp [e, Pte.zero] at hP
  have hfind : d.find va = some (d.ent v) := by rw [Pgdir.find_of_has hva (by rwa [hv]), hv]
  have hC : (d.ent v).CoW = false := (check_eq hva hv hfind).symm.trans hk
  by_cases hup : v < UPAGES
  · rcases h.pages p d hl hd v hup with hz | ⟨-, -, hcw, -⟩
    · rw [hz] at hP
      cases hP
    · have hW : (d.ent v).W = true := by simpa [hC] using hcw
      refine hno ?_
      simp only [Pte.permits, hW, Bool.or_true, Bool.and_true, Bool.not_false] at hp ⊢
      exact hp
  · have hU := (hker v (Nat.le_of_not_lt hup)).1
    rw [Pte.permits, hU] at hp
    simp at hp

/-- The handler on a fault it does not kill for. -/
theorem pgflt_spec (h : Ok k) (hl : k.live p) {d : Pgdir} (hd : k.pgdir p = some d) {va : ℕ}
    (hva : va < 2 ^ 32) (hk : ¬kills d va) :
    wp (pgflt d va) (fun r s' => ∃ d' v, r = some d' ∧ va / 4096 = v ∧ v < UPAGES ∧
      (d.ent v).P = true ∧ (d.ent v).CoW = true ∧ FaultEffect d v (0 + k.rest p) k.phys d' s' ∧
      Balanced InRange s'.kmem (0 + k.rest p + d'.holds))
      (fun e s' => e = .nullDeref ∧ (s'.oom = true ∧ k.phys.free = [] ∧
        1 < refs (0 + k.rest p + d.holds) (d.ent (va / 4096)).ppn ∨ d.find va = none))
      k.phys := by
  obtain ⟨-, -, hker⟩ := h.inv.of_live hl hd
  have hcheck : check_CoW_bit_set_or_not d va = true := by simpa [kills] using hk
  unfold pgflt
  rw [if_pos hcheck]
  simp only [wp_bind, wp_pure]
  cases hfind : d.find va with
  | none =>
    -- the handler takes a missing page table for a copy-on-write page
    unfold makeCopy
    rw [hfind]
    exact ⟨rfl, Or.inr rfl⟩
  | some e =>
    generalize hv : va / 4096 = v
    have hC : (d.ent v).CoW = true := (check_eq hva hv hfind).symm.trans hcheck
    have hup : v < UPAGES := by
      by_contra hge
      rw [(hker v (Nat.le_of_not_lt hge)).2.1] at hC
      cases hC
    have hP : (d.ent v).P = true := by
      rcases h.pages p d hl hd v hup with hz | ⟨hP, -⟩
      · rw [hz] at hC
        cases hC
      · exact hP
    refine wp_mono (makeCopy_spec hv hup hP (h.inv.acct_rest hl hd)) (fun d' s' hs => ?_)
      fun e s' he => ⟨he.1, Or.inl he.2⟩
    exact ⟨d', v, rfl, rfl, hup, hP, hC, hs⟩

/-- What a user access does. -/
theorem access_spec (h : Ok k) (hl : k.live p) {va : ℕ} (hva : va < 2 ^ 32) {w : Option UInt8} :
    wp (access tree p va w accessFuel 0) (AccessEffect p va w k) (AccessStop k p va) k := by
  obtain ⟨d, f, hd, hf, hsz, hker⟩ := h.inv.live p hl
  by_cases hend : (∃ e, d.allows va w.isSome e) ∨ kills d va
  · refine wp_mono (@access_end_spec _ kills _ _ _ _ _ _ _ _ hd fun hn => ?_)
      (fun _ _ he => .direct he) ?_
    · have hk := hend.resolve_left hn
      refine ⟨hk, ?_⟩
      rw [kills] at hk
      simp only [tree, pgflt, hk, Bool.false_eq_true, if_false]
    · rintro e k' ⟨rfl, -, hn⟩
      exact Or.inr ⟨Or.inr rfl, d, hd, h.not_allows hl hd hva hn (hend.resolve_left hn)⟩
  obtain ⟨hno, hk⟩ := not_or.mp hend
  refine access_fault_spec hd (by simp [hf]) hno ?_
  refine wp_mono (pgflt_spec h hl hd hva hk) (fun r s' hs => ?_) fun e s' he => ?_
  swap
  · obtain ⟨rfl, ho | hfind⟩ := he
    · exact Or.inl ⟨rfl, ho.1, ho.2.1⟩
    · refine Or.inr ⟨Or.inl rfl, d, hd, ?_⟩
      rintro ⟨e, he, -⟩
      rw [hfind] at he
      cases he
  obtain ⟨d', v, rfl, hv, hup, hP, hC, hfault, ha⟩ := hs
  -- the entry is writable now, and not copy-on-write
  obtain ⟨e', hr, hP', hW', hC', hU'⟩ := hfault.entry hP
  have hent : d'.flush.ent v = e' := by rw [Pgdir.ent_flush, hr.ent, if_pos rfl]
  have hhas : d'.flush.has (v / 1024) :=
    Pgdir.has_of_ent_ne fun e => by simp [← hent, e, Pte.zero] at hP'
  have hfind' : d'.flush.find va = some (d'.flush.ent v) := by
    rw [Pgdir.find_of_has hva (by rwa [hv]), hv]
  have hk' : kills d'.flush va := by
    rw [kills, check_eq hva hv hfind', hent, hC']
  refine ⟨d', rfl, wp_mono (@access_end_spec _ kills _ _ _ _ _ _ _ _ Kernel.setMem_self.2
    fun _ => ⟨hk', ?_⟩) (fun _ _ he => .fault hv hup hd hP hC hno hfault ha he) ?_⟩
  · rw [kills] at hk'
    simp only [tree, pgflt, hk', Bool.false_eq_true, if_false]
  · rintro e k' ⟨rfl, -, hn⟩
    refine Or.inr ⟨Or.inr rfl, d, hd, ?_⟩
    rw [Pgdir.exists_allows hva hv, hent] at hn
    rw [Pgdir.exists_allows hva hv]
    intro hp
    simp only [Pte.permits, Bool.and_eq_true] at hp
    exact hn (by simp [Pte.permits, hP', hW', hU' hp.1.2])

/-- User accesses keep the invariant. -/
theorem AccessEffect.ok (h : Ok k) (hl : k.live p) {va : ℕ} {w : Option UInt8} {res : Result}
    (he : AccessEffect p va w k res k') : Ok k' := by
  have hend : ∀ {k₁ : Kernel Kmem} {n : ℕ}, Ok k₁ → k₁.live p →
      AccessEnd kills p va w n k₁ res k' → Ok k' := fun h₁ hl₁ he₁ => by
    have hs := he₁.same hl₁
    exact ⟨⟨hs.same.pages h₁.pages, hs.same.tight h₁.tight, hs.same.injective h₁.inj⟩,
      hs.inv h₁.inv⟩
  cases he with
  | direct he => exact hend h hl he
  | fault hv hup hd hP hC hno hf ha he =>
    exact hend (h.fault hl hd hup hP hf ha) ((Kernel.live_setMem p).mpr hl) he

/-! ## `fork` -/

omit [Layout] in
theorem Child.inj {d c : Pgdir} {n : ℕ} (h : Child d c n) (hi : d.Inj) : c.Inj :=
  hi.sub fun v hv hP => by
    by_cases hn : v < n
    · exact h.low v hn
    · rw [h.high v (Nat.le_of_not_lt hn) hv] at hP
      cases hP

omit [Layout] in
/-- A child maps no frame more often than the parent. -/
theorem Child.refs_uses_le {d c : Pgdir} {n : ℕ} (h : Child d c n) (f : ℕ) :
    refs c.uses f ≤ refs d.uses f := by
  rw [Pgdir.refs_uses_eq_card, Pgdir.refs_uses_eq_card]
  refine Finset.card_le_card fun v hv => ?_
  obtain ⟨hvu, hP, hf⟩ := Finset.mem_filter.mp hv
  have hn : v < n := by
    by_contra hge
    rw [h.high v (Nat.le_of_not_lt hge) (Finset.mem_range.mp hvu)] at hP
    cases hP
  rw [h.low v hn] at hP hf
  exact Finset.mem_filter.mpr ⟨hvu, hP, hf⟩

omit [Layout] in
/-- A parent with write-protected pages. -/
theorem Dirs.protect (h : Dirs k) (hl : k.live p) {d d' : Pgdir} {n : ℕ} (s' : Phys Kmem)
    (hd : k.pgdir p = some d) (hp : Protected d d' n) :
    Dirs (k.setMem p s' (k.proc p).sz d') := by
  have htot : 0 + k.total = 0 + k.rest p + d'.holds := by
    rw [hp.holds, add_assoc, ← Kernel.total_eq_rest hl hd]
  have hP : ∀ v, (d'.ent v).P = (d.ent v).P := fun v => by
    rw [hp.ent]
    split
    · exact protect_P _
    · rfl
  have hppn : ∀ v, (d'.ent v).ppn = (d.ent v).ppn := fun v => by
    rw [hp.ent]
    split
    · exact protect_ppn _
    · rfl
  refine ⟨h.pages.setMem entryOk_policy hl (by rw [htot]; exact .refl _) fun v hv => ?_,
    h.tight.setMem fun v hge hv => ?_, h.inj.setMem fun v w hv hw hPv hPw he => ?_⟩
  · have hold := h.pages p d hl hd v hv
    rw [← htot, hppn, hp.ent]
    split
    · exact entryOk_protect hold
    · exact hold
  · rw [hP]
    exact h.tight p d hl hd v hge hv
  · rw [hP] at hPv hPw
    rw [hppn, hppn] at he
    exact h.inj p d hl hd v w hv hw hPv hPw he

/-- A frame that somebody else alone uses gets no claim from the child. -/
theorem Child.refs_born_le {r : Ledger ℕ} {f g n : ℕ} {d c : Pgdir} {s : Phys Kmem}
    (hc : Child d c n) (ha : Balanced InRange s.kmem (0 + r + excl f + d.holds + c.holds))
    (h1 : refs (0 + (r + d.holds)) g ≤ 1) (hr : 0 < refs r g) :
    refs (0 + r + excl f + d.holds + c.holds) g ≤ 1 := by
  have hx := ha.exact.excl_alone g
  have h₁ := d.holds_fst g
  have h₂ := c.holds_fst g
  have h₃ := hc.refs_uses_le g
  have h₄ : (excl f g).1 = 0 := by
    by_cases h : g = f
    · simp [h]
    · simp [excl_ne h]
  have h₅ : refs d.uses g ≤ refs d.holds g := by
    simp only [Pgdir.holds, refs_add]
    omega
  have h₆ : (r g).1 ≤ refs r g := Nat.le_add_right _ _
  generalize ho : (0 + r + excl f + d.holds + c.holds) = o at hx ⊢
  by_cases h0 : (o g).2 = 0
  · have hfst : (o g).1 = (r g).1 + (d.holds g).1 + (c.holds g).1 := by
      simp [← ho, h₄]
    simp only [refs_add, refs_zero] at h1
    rw [refs, h0, hfst]
    omega
  · rw [refs, hx h0]
    exact le_refl 1

/-- The directories when the child is there. -/
theorem Dirs.born (h : Dirs k) (hl : k.live p) {np : ProcPtr} {f : ℕ} {d d' c : Pgdir}
    {s' : Phys Kmem} (hnp : (k.proc np).state = .UNUSED) (hd : k.pgdir p = some d)
    (hp : Protected d d' (Xv6.pages (k.proc p).sz))
    (hc : Child d' c (Xv6.pages (k.proc p).sz))
    (ha : Balanced InRange s'.kmem (0 + k.rest p + excl f + d'.holds + c.holds)) :
    Dirs (k.born p np f s' d'.flush c) := by
  have hne : p ≠ np := fun e => hl (by rw [e]; exact hnp)
  have h₁ := h.protect hl s' hd hp
  set k₁ := k.setMem p s' (k.proc p).sz d' with hk₁
  have htot : (k.born p np f s' d'.flush c).total =
      0 + k.rest p + excl f + d'.holds + c.holds := by
    rw [Kernel.total_born hl hnp, Pgdir.holds_flush]
    abel
  have htot₁ : k₁.total = k.rest p + d'.holds := Kernel.total_setMem hl
  -- a slot other than the child's has the directory it has in `k₁`, up to the flush
  have hold : ∀ {q : ProcPtr} {c' : Pgdir}, q ≠ np → (k.born p np f s' d'.flush c).live q →
      (k.born p np f s' d'.flush c).pgdir q = some c' →
      k₁.live q ∧ ((k.born p np f s' d'.flush c).proc q).sz = (k₁.proc q).sz ∧
        ∃ c₁, k₁.pgdir q = some c₁ ∧ ∀ v, c'.ent v = c₁.ent v := by
    intro q c' hq hlq hdq
    refine ⟨(Kernel.live_setMem q).mpr ((Kernel.live_born.mp hlq).resolve_left hq), ?_, ?_⟩
    · rw [hk₁, Kernel.setMem_sz_self]
      simp [Kernel.born, Table.set_ne, hq]
    · by_cases hqp : q = p
      · subst hqp
        have hd' : d'.flush = c' := by simpa [Kernel.born, hne] using hdq
        exact ⟨d', Kernel.setMem_self.2, fun v => by rw [← hd', Pgdir.ent_flush]⟩
      · have hdq' : k.pgdir q = some c' := by simpa [Kernel.born, hq, hqp] using hdq
        exact ⟨c', (Kernel.setMem_of_ne hqp).2.trans hdq', fun _ => rfl⟩
  have hchild : ∀ {c' : Pgdir}, (k.born p np f s' d'.flush c).pgdir np = some c' → c = c' :=
    fun hdq => by simpa [Kernel.born] using hdq
  have hsz : ((k.born p np f s' d'.flush c).proc np).sz = (k.proc p).sz := by simp [Kernel.born]
  refine ⟨fun q c' hlq hdq v hv => ?_, fun q c' hlq hdq v hge hv => ?_, fun q c' hlq hdq => ?_⟩
  · have hpar : entryOk (refs (0 + k₁.total) (d'.ent v).ppn) (d'.ent v) ∧ (d'.ent v).W = false := by
      have hent := h₁.pages p d' ((Kernel.live_setMem p).mpr hl) Kernel.setMem_self.2 v hv
      refine ⟨hent, ?_⟩
      by_cases hvn : v < Xv6.pages (k.proc p).sz
      · rw [hp.ent, if_pos hvn, protect_W]
      · have hP := h₁.tight p d' ((Kernel.live_setMem p).mpr hl) Kernel.setMem_self.2 v
          (by rw [Kernel.setMem_self.1]; exact Nat.le_of_not_lt hvn) hv
        rcases hent with hz | ⟨hP', -⟩
        · rw [hz]
          rfl
        · rw [hP] at hP'
          cases hP'
    by_cases hq : q = np
    · subst hq
      rw [← hchild hdq]
      by_cases hvn : v < Xv6.pages (k.proc p).sz
      · rw [hc.low v hvn]
        exact hpar.1.of_not_W hpar.2
      · rw [hc.high v (Nat.le_of_not_lt hvn) hv]
        exact Or.inl rfl
    · obtain ⟨hl₁, -, c₁, hc₁, he⟩ := hold hq hlq hdq
      rw [he]
      have hent := h₁.pages q c₁ hl₁ hc₁ v hv
      by_cases hW : (c₁.ent v).W = true
      swap
      · exact hent.of_not_W (by simpa using hW)
      -- a writable page is of another process, and its frame is not the parent's
      have hqp : q ≠ p := fun e => by
        subst e
        rw [← Option.some.inj (Kernel.setMem_self.2.symm.trans hc₁), hpar.2] at hW
        cases hW
      rcases hent with hz | ⟨hP, hL, hC, hn⟩
      · rw [hz] at hW
        cases hW
      refine Or.inr ⟨hP, hL, hC, fun _ => ?_⟩
      have h1 := hn hW
      have hrest : 0 < refs (k.rest p) (c₁.ent v).ppn :=
        lt_of_lt_of_le (Pgdir.refs_uses_pos hv hP) (refs_uses_le_rest hqp
          ((Kernel.live_setMem q).mp hl₁) ((Kernel.setMem_of_ne hqp).2.symm.trans hc₁) _)
      rw [htot₁] at h1
      rw [htot, zero_add]
      exact hc.refs_born_le ha h1 hrest
  · by_cases hq : q = np
    · subst hq
      rw [hsz] at hge
      rw [← hchild hdq, hc.high v hge hv]
      rfl
    · obtain ⟨hl₁, hsz₁, c₁, hc₁, he⟩ := hold hq hlq hdq
      rw [hsz₁] at hge
      rw [he]
      exact h₁.tight q c₁ hl₁ hc₁ v hge hv
  · by_cases hq : q = np
    · subst hq
      rw [← hchild hdq]
      exact hc.inj (h₁.inj p d' ((Kernel.live_setMem p).mpr hl) Kernel.setMem_self.2)
    · obtain ⟨hl₁, -, c₁, hc₁, he⟩ := hold hq hlq hdq
      exact (h₁.inj q c₁ hl₁ hc₁).sub fun v _ _ => he v

/-- `fork` keeps the invariant. -/
theorem fork_ok (h : Ok k) (hl : k.live p) {d : Pgdir} (hd : k.pgdir p = some d) {res : Result}
    (he : ForkEffect (CopyEffect d (k.proc p).sz) true 0 k p res k') : Ok k' := by
  obtain ⟨-, hsz, hker⟩ := h.inv.of_live hl hd
  have hpg := pages_le_UPAGES hsz
  have hkp : ∀ {d' : Pgdir} {n : ℕ}, n ≤ pages (k.proc p).sz → Protected d d' n → d'.KernelOk :=
    fun hn hp => hker.congr fun v hv => by rw [hp.ent, if_neg (by omega)]
  have hinv := he.inv h.inv hl (@shape_small Kmem _).flush fun r s res s' hc => by
    cases hc with
    | copied hp hP hc hm ho hlen =>
      exact ⟨⟨hsz, hkp (le_refl _) hp⟩, fun d₂ h₂ => ⟨hsz, Option.some.inj h₂ ▸ hc.kernel⟩⟩
    | failed hn hp => exact ⟨⟨hsz, hkp hn hp⟩, fun d₂ h₂ => by cases h₂⟩
  refine ⟨?_, hinv⟩
  cases he with
  | full => exact h.toDirs
  | @noStack np hnp hfree =>
    have hun : (k.proc np).state = .UNUSED := by simpa using Table.first_some hnp
    have hs := SameLive.unborn (s := { k.phys with oom := true }) hl hun hd fun _ _ _ => rfl
    have hd' := h.toDirs.protect hl { k.phys with oom := true } hd (.refl d)
    exact ⟨hs.pages hd'.pages, hs.tight hd'.tight, hs.injective hd'.inj⟩
  | @noCopy np f s₁ s₂ s' d' hnp hf hm₁ ho₁ hfree hc ha hk ho =>
    have hun : (k.proc np).state = .UNUSED := by simpa using Table.first_some hnp
    have hne : p ≠ np := fun e => hl (by rw [e]; exact hun)
    have hcur : Function.update (Function.update k.pgdir p (some d')) np none p = some d' := by
      rw [Function.update_of_ne hne, Function.update_self]
    have hs := SameLive.unborn (s := s') hl hun hcur fun j hjp hjn => by
      rw [Function.update_of_ne hjn, Function.update_of_ne hjp]
    cases hc with
    | failed hn hp hk' ho' hlen =>
      have hd' := h.toDirs.protect hl s' hd hp
      exact ⟨hs.pages hd'.pages, hs.tight hd'.tight, hs.injective hd'.inj⟩
  | @born np f s₁ s' d' c hnp hf hm₁ ho₁ hfree hc ha =>
    have hun : (k.proc np).state = .UNUSED := by simpa using Table.first_some hnp
    cases hc with
    | copied hp hP hc hm ho hlen => exact h.toDirs.born hl hun hd hp hc ha

/-! ## All operations -/

/-- Every operation keeps the invariant. -/
theorem Effect.ok (h : Ok k) {op : Op} {res : Result} (he : Effect k op res k') : Ok k' := by
  cases he with
  | common hc =>
    exact ⟨⟨hc.pages entryOk_policy h.pages, hc.tight h.tight, hc.injective h.inj⟩, hc.inv shape_small h.inv⟩
  | fork hp hd hf => exact fork_ok h (live_of_running hp) hd hf
  | load hp ha => exact ha.ok h (live_of_running hp)
  | store hp ha => exact ha.ok h (live_of_running hp)
  | mmap => exact h

/-- What the operations do, and how they can stop. -/
theorem step_spec (h : Ok k) (op : Op) : wp (step tree op) (Effect k op) (Stop k op) k := by
  have huint : ∀ va, uint va < 2 ^ 32 := fun va => Nat.mod_lt _ (by decide)
  by_cases hop : op.common = true
  · refine wp_mono (common_spec tree shape_small h.inv hop) (fun _ _ he => .common he) fun e k' he => ?_
    cases op <;> first | exact he | cases hop
  cases op with
  | fork p =>
    refine wp_whenRunning (fun hp => ?_) fun hp => .common (.disabled hp)
    have hl := live_of_running hp
    obtain ⟨d, f, hd, hf, hsz, -⟩ := h.inv.live p hl
    refine wp_mono (@forkWith_spec _ _ _ _ _ _ _ _ _ _ (CopyEffect d (k.proc p).sz) _ _ h.inv hl hd
      fun r s ha => copyuvm_spec hsz ha) (fun _ _ he => .fork hp hd he) ?_
    rintro e k' ⟨hnp, hpid | ⟨_, _, _, hc, habs⟩⟩
    · exact ⟨hnp, Or.inl hpid⟩
    · exact ⟨hnp, Or.inr ⟨hc, d, hd, habs⟩⟩
  | mmap p n => exact wp_whenRunning (fun hp => .mmap) fun hp => .common (.disabled hp)
  | load p va =>
    refine wp_whenRunning (fun hp => ?_) fun hp => .common (.disabled hp)
    exact wp_post (access_spec h (live_of_running hp) (huint va)) fun _ _ he => .load hp he
  | store p va b =>
    refine wp_whenRunning (fun hp => ?_) fun hp => .common (.disabled hp)
    exact wp_post (access_spec h (live_of_running hp) (huint va)) fun _ _ he => .store hp he
  | _ => exact absurd rfl hop

theorem ok_of_booted {M : Machine} (h : Booted M k) : Ok k :=
  ⟨⟨h.pages entryOk_policy, h.tight, h.injective⟩, h.inv⟩

/-- An operation that ends does what `Effect` says. -/
theorem Ok.effect (h : Ok k) {op : Op} {res : Result} (hs : step tree op k = .ok res k') :
    Effect k op res k' :=
  of_ok (step_spec h op) hs

/-- Every reachable state is in order. -/
theorem ok_of_reachable {C : Kernel Kmem → Op → Result → Prop} (h : Reachable tree C k) : Ok k :=
  h.induct (fun _ _ hb => ok_of_booted hb) fun _ _ _ _ ih _ hs => (ih.effect hs).ok ih

end System

end OsLabs.Cow
