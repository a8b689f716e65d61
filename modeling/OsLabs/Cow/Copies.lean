import OsLabs.Cow.Smp

/-!
# What the fault handlers copy

A handler copies the frame of its page after it has given up its reference to it. Until then another
process may find that it is the only one left and write to the frame, or `wait` may free it.

* `copies_intact`: a copy is what the page contained when the process faulted, if nobody writes to
  the frame or gives up the last reference to it while the handler is between the two steps;
* `copy_overwritten`: the other case.
-/

namespace OsLabs.Cow.Smp

open Xv6 StateError Ledger

variable {ι : Type} [DecidableEq ι]

namespace Sharer

/-- The handler has given up its reference and not yet copied the frame. -/
def pending (x : Sharer) : Prop :=
  match x.stage with
  | .dropped | .allocated _ => True
  | _ => False

/-- The frame whose contents the handler is going to use. -/
def reads (x : Sharer) : Option ℕ :=
  match x.stage with
  | .faulted | .counted _ | .dropped | .allocated _ => some x.pte.ppn
  | .copied mem => some mem
  | _ => none

/-- The frame that the handler has allocated. -/
def fresh (x : Sharer) : Option ℕ :=
  match x.stage with
  | .allocated mem | .copied mem => some mem
  | _ => none

/-- What a handler is going to use, it holds, unless it has given it up. -/
theorem refs_claim_of_reads {x : Sharer} {f : ℕ} (hP : x.stage ≠ .gone → x.pte.P = true)
    (h : x.reads = some f) : refs x.claim f ≠ 0 ∨ x.pending ∧ f = x.pte.ppn := by
  unfold reads at h
  unfold claim pending
  cases hs : x.stage with
  | faulted | counted n =>
    left
    simp only [hs] at h ⊢
    obtain rfl := Option.some.inj h
    rw [Pgdir.pteHold_of_P (hP (by rw [hs]; exact Stage.noConfusion)), refs_shared, if_pos rfl]
    exact one_ne_zero
  | dropped | allocated mem =>
    simp only [hs] at h ⊢
    exact Or.inr ⟨trivial, (Option.some.inj h).symm⟩
  | copied mem =>
    left
    simp only [hs] at h ⊢
    obtain rfl := Option.some.inj h
    rw [refs_shared, if_pos rfl]
    exact one_ne_zero
  | user | zombie | gone =>
    simp only [hs] at h
    cases h

/-- An allocated frame is for the page itself. -/
theorem sole_of_fresh {x : Sharer} {f : ℕ} (h : x.fresh = some f) : x.sole = some f := by
  unfold fresh at h
  unfold sole
  cases hs : x.stage with
  | allocated mem | copied mem =>
    simp only [hs] at h ⊢
    exact h
  | user | faulted | counted | dropped | zombie | gone =>
    simp only [hs] at h
    cases h

end Sharer

section Copies

variable [Layout] [Fintype ι] {dom : ℕ → Prop} {s s' : State ι} {i j : ι} {t : Phys Kmem}
variable {x : Sharer} {f g : ℕ} {op : Op ι}

/-- The frames that the handlers are going to use contain what the pages contained when the writes
trapped, and a frame that a handler is going to copy is not handed out. -/
structure Intact (s : State ι) : Prop where
  reads : ∀ i f, (s.page i).reads = some f → s.phys.mem f = (s.page i).before
  free : ∀ i, (s.page i).pending → (s.page i).pte.ppn ∉ s.phys.kmem.freelist
  fresh : ∀ i j, (s.page i).pending → (s.page j).fresh ≠ some (s.page i).pte.ppn

/-- The step writes to the frame, or gives up the last reference to it. -/
inductive Disturbs (s : State ι) : Option (Op ι) → ℕ → Prop
  | write {i : ι} {off : ℕ} {b : UInt8} :
      Disturbs s (some (.write i off b)) (s.page i).pte.ppn
  | kfree {i : ι} (h : s.phys.kmem.refcount_list (s.page i).pte.ppn ≤ 1) :
      Disturbs s (some (.kfree i)) (s.page i).pte.ppn
  | give {f : ℕ} (h : s.phys.kmem.refcount_list f ≤ 1) : Disturbs s (some (.give f)) f

/-- The step does not disturb a frame that a handler has given up and not yet copied. -/
def Undisturbed (s : State ι) (o : Option (Op ι)) (_ : State ι) : Prop :=
  ∀ j, (s.page j).pending → ¬Disturbs s o (s.page j).pte.ppn

omit [Layout] [Fintype ι] in
/-- A step of one page. -/
theorem Intact.goto (h : Intact s)
    (hmem : ∀ j ≠ i, ∀ f, (s.page j).reads = some f → t.mem f = s.phys.mem f)
    (hfree : ∀ j ≠ i, (s.page j).pending → (s.page j).pte.ppn ∉ t.kmem.freelist)
    (hnew : ∀ j ≠ i, (s.page j).pending → x.fresh ≠ some (s.page j).pte.ppn)
    (hreads : ∀ f, x.reads = some f → t.mem f = x.before)
    (hself : x.pending → x.pte.ppn ∉ t.kmem.freelist ∧ x.fresh ≠ some x.pte.ppn ∧
      ∀ j ≠ i, (s.page j).fresh ≠ some x.pte.ppn) : Intact (s.goto i t x) := by
  refine ⟨fun j f => ?_, fun j => ?_, fun j k => ?_⟩
  · rcases eq_or_ne j i with rfl | hj
    · rw [State.page_goto_self]
      exact hreads f
    · rw [State.page_goto_ne hj]
      exact fun hf => (hmem j hj f hf).trans (h.reads j f hf)
  · rcases eq_or_ne j i with rfl | hj
    · rw [State.page_goto_self]
      exact fun hp => (hself hp).1
    · rw [State.page_goto_ne hj]
      exact hfree j hj
  · rcases eq_or_ne j i with rfl | hj
    · rw [State.page_goto_self]
      intro hp
      rcases eq_or_ne k j with rfl | hk
      · rw [State.page_goto_self]
        exact (hself hp).2.1
      · rw [State.page_goto_ne hk]
        exact (hself hp).2.2 k hk
    · rw [State.page_goto_ne hj]
      intro hp
      rcases eq_or_ne k i with rfl | hk
      · rw [State.page_goto_self]
        exact hnew j hj hp
      · rw [State.page_goto_ne hk]
        exact h.fresh j k hp

omit [Layout] [Fintype ι] in
/-- A step of one page that is not a copying one, and leaves memory alone. -/
theorem Intact.goto_idle (h : Intact s) (hmem : t.mem = s.phys.mem)
    (hfree : t.kmem.freelist = s.phys.kmem.freelist) (hnew : x.fresh = none)
    (hreads : ∀ f, x.reads = some f → s.phys.mem f = x.before) (hself : ¬x.pending) :
    Intact (s.goto i t x) := by
  apply h.goto
  · exact fun j _ f _ => by rw [hmem]
  · exact fun j _ hp => by rw [hfree]; exact h.free j hp
  · exact fun j _ _ hf => by rw [hnew] at hf; cases hf
  · exact fun f hf => by rw [hmem]; exact hreads f hf
  · exact fun hp => absurd hp hself

omit [Fintype ι] [DecidableEq ι] in
/-- Unless it takes the last reference to it, `kfree` leaves a frame alone. -/
theorem kfree_spares {p : Phys Kmem} {o c : Ledger ℕ} (hc : IsClaim f c)
    (hb : Balanced dom p.kmem (o + c)) (hr : Cow.kfree f p = .ok () t)
    (hone : g = f → 1 < p.kmem.refcount_list f) :
    t.mem g = p.mem g ∧ (g ∉ p.kmem.freelist → g ∉ t.kmem.freelist) := by
  obtain ⟨hb', hkeep, hmem, -⟩ := of_ok (kfree_spec hc hb) hr
  have hheld : g = f → o g ≠ 0 := by
    rintro rfl h0
    have hcount := hb.count g
    have := hone rfl
    rw [refs_add, refs_eq_zero.mpr h0, hc.refs_self] at hcount
    omega
  refine ⟨?_, fun hg hg' => ?_⟩
  · rcases eq_or_ne g f with h | h
    · exact hkeep g (hheld h)
    · exact hmem g h
  · obtain ⟨hd, h0⟩ := hb'.exact.mem_free.mp hg'
    have hne : g ≠ f := fun h => hheld h h0
    exact hg (hb.exact.complete g hd (by rw [Pi.add_apply, h0, hc.ne hne, add_zero]))

omit [Layout] in
/-- A frame with a reference that is not the page's is among the others. -/
theorem State.others_ne_zero (hj : j ≠ i) (h : refs (s.page j).claim f ≠ 0) : s.others i f ≠ 0 := by
  have hmem : j ∈ Finset.univ.erase i := Finset.mem_erase.mpr ⟨hj, Finset.mem_univ j⟩
  rw [← refs_pos, State.others, ← Finset.sum_erase_add _ _ hmem, refs_add, refs_add]
  omega

/-- The steps that leave a handler undisturbed leave the copies intact. -/
theorem Intact.step (h : Intact s) (hok : Ok dom s) (hu : Undisturbed s (some op) s')
    (hs : Step s (some op) s') : Intact s' := by
  cases hs with
  | @write i off b hst hp =>
    have hW : (s.page i).pte.W = true := by
      simp only [Pte.permits, Bool.and_eq_true] at hp
      simpa using hp.2
    have hsole : (s.page i).sole = some (s.page i).pte.ppn := by
      rw [Sharer.sole, hst]
      exact if_pos hW
    refine ⟨fun j f hf => ?_, h.free, h.fresh⟩
    have hne : f ≠ (s.page i).pte.ppn := by
      rintro rfl
      rcases Sharer.refs_claim_of_reads (hok.present j) hf with hc | ⟨hpend, he⟩
      · obtain rfl := hok.eq_of_sole hsole hc
        rw [Sharer.reads, hst] at hf
        cases hf
      · exact hu j hpend (he ▸ .write)
    rw [Phys.fill_mem_ne _ _ _ hne]
    exact h.reads j f hf
  | @fault i hst hC hW =>
    apply h.goto_idle rfl rfl rfl
    · intro f hf
      obtain rfl := Option.some.inj hf
      rfl
    · exact id
  | @get_refcount i n t hst hr =>
    cases hr
    apply h.goto_idle rfl rfl rfl
    · intro f hf
      exact h.reads i f (by rw [Sharer.reads, hst]; exact hf)
    · exact id
  | @decrease_refcount i n t hst hn hr =>
    have hP := hok.present i (by rw [hst]; exact Stage.noConfusion)
    have hc : (s.page i).claim = shared (s.page i).pte.ppn := by
      rw [Sharer.claim, hst]
      exact Pgdir.pteHold_of_P hP
    have hone : refs (s.page i).claim (s.page i).pte.ppn ≠ 0 := by
      rw [hc, refs_shared, if_pos rfl]
      exact one_ne_zero
    cases hr
    apply h.goto
    · exact fun _ _ _ _ => rfl
    · exact fun j _ hp => h.free j hp
    · exact fun j _ _ hf => by cases hf
    · exact fun f hf => h.reads i f (by rw [Sharer.reads, hst]; exact hf)
    · refine fun _ => ⟨?_, ?_, ?_⟩
      · intro hm
        have h0 := refs_eq_zero.mpr (hok.acct.exact.free_unheld _ hm)
        rw [s.ledger_eq i, refs_add] at h0
        exact hone (Nat.eq_zero_of_add_eq_zero_left h0)
      · intro hf
        cases hf
      · intro j hj hf
        exact hj (hok.eq_of_sole (Sharer.sole_of_fresh hf) hone).symm
  | @kalloc i mem t hst hr =>
    have hb := hok.acct
    obtain ⟨-, -, hmem, -, hfree⟩ := of_ok (kalloc_spec hb) hr
    have hne : ∀ j, (s.page j).pending → mem ≠ (s.page j).pte.ppn := by
      rintro j hp rfl
      exact h.free j hp (by rw [hfree]; exact List.mem_cons_self)
    have hsub : ∀ j, (s.page j).pending → (s.page j).pte.ppn ∉ t.kmem.freelist := fun j hp hm =>
      h.free j hp (by rw [hfree]; exact List.mem_cons_of_mem _ hm)
    have hpend : (s.page i).pending := by
      rw [Sharer.pending, hst]
      trivial
    apply h.goto
    · exact fun _ _ _ _ => by rw [hmem]
    · exact fun j _ hp => hsub j hp
    · exact fun j _ hp hf => hne j hp (Option.some.inj hf)
    · intro f hf
      rw [hmem]
      exact h.reads i f (by rw [Sharer.reads, hst]; exact hf)
    · exact fun _ => ⟨hsub i hpend, fun hf => hne i hpend (Option.some.inj hf),
        fun j _ => h.fresh i j hpend⟩
  | @memmove i mem hst =>
    have hsole : (s.page i).sole = some mem := by rw [Sharer.sole, hst]
    have hfresh : (s.page i).fresh = some mem := by rw [Sharer.fresh, hst]
    apply h.goto
    · intro j hj f hf
      refine Phys.fill_mem_ne _ _ _ ?_
      rintro rfl
      rcases Sharer.refs_claim_of_reads (hok.present j) hf with hc | ⟨hpend, he⟩
      · exact hj (hok.eq_of_sole hsole hc)
      · exact h.fresh j i hpend (by rw [hfresh, he])
    · exact fun j _ hp => h.free j hp
    · exact fun j _ hp hf => h.fresh j i hp (hfresh.trans hf)
    · intro f hf
      obtain rfl := Option.some.inj hf
      rw [Phys.fill_mem_self]
      exact h.reads i _ (by rw [Sharer.reads, hst])
    · exact False.elim
  | @setPte i mem hst =>
    apply h.goto_idle rfl rfl rfl
    · exact fun f hf => by cases hf
    · exact id
  | @grant i n hst hn =>
    apply h.goto_idle rfl rfl rfl
    · exact fun f hf => by cases hf
    · exact id
  | @exit i hst =>
    apply h.goto_idle rfl rfl rfl
    · exact fun f hf => by cases hf
    · exact id
  | @kfree i t hst hr =>
    have hP := hok.present i (by rw [hst]; exact Stage.noConfusion)
    have hb := hok.acct
    have hc : (s.page i).claim = shared (s.page i).pte.ppn := by
      rw [Sharer.claim, hst]
      exact Pgdir.pteHold_of_P hP
    rw [s.ledger_eq i, hc] at hb
    have hspare : ∀ j, (s.page j).pending → _ := fun j hp =>
      kfree_spares (g := (s.page j).pte.ppn) (isClaim_shared _) hb hr fun he =>
        not_le.mp fun hle => hu j hp (he ▸ .kfree hle)
    apply h.goto
    · intro j hj f hf
      rcases Sharer.refs_claim_of_reads (hok.present j) hf with hc | ⟨hpend, rfl⟩
      · exact (of_ok (kfree_spec (isClaim_shared _) hb) hr).2.1 f (State.others_ne_zero hj hc)
      · exact (hspare j hpend).1
    · exact fun j _ hp => (hspare j hp).2 (h.free j hp)
    · exact fun j _ _ hf => by cases hf
    · exact fun f hf => by cases hf
    · exact False.elim
  | @take f t hr =>
    obtain ⟨-, -, hmem, -, hfree⟩ := of_ok (kalloc_spec hok.acct) hr
    refine ⟨fun j g hg => ?_, fun j hp hm => ?_, h.fresh⟩
    · exact (congrFun hmem g).trans (h.reads j g hg)
    · exact h.free j hp (by rw [hfree]; exact List.mem_cons_of_mem _ hm)
  | @give f r c t hc hf hr =>
    have hl : s.ledger = r + ∑ i, (s.page i).claim + c := by
      rw [State.ledger, hf]
      abel
    have hb := hok.acct
    rw [hl] at hb
    have hspare : ∀ j, (s.page j).pending → _ := fun j hp =>
      kfree_spares (g := (s.page j).pte.ppn) hc hb hr fun he =>
        not_le.mp fun hle => hu j hp (by rw [he]; exact .give hle)
    refine ⟨fun j g hg => ?_, fun j hp => (hspare j hp).2 (h.free j hp), h.fresh⟩
    rcases Sharer.refs_claim_of_reads (hok.present j) hg with hcl | ⟨hpend, rfl⟩
    · refine ((of_ok (kfree_spec hc hb) hr).2.1 g ?_).trans (h.reads j g hg)
      rw [← refs_pos, refs_add, ← Finset.sum_erase_add _ _ (Finset.mem_univ j), refs_add]
      omega
    · exact (hspare j hpend).1.trans (h.reads j _ hg)

/-- The copy that a handler is about to enter is what its page contained when the write trapped. -/
def Faithful (s : State ι) : Prop :=
  ∀ i mem, (s.page i).stage = .copied mem → s.phys.mem mem = (s.page i).before

theorem undisturbed_invariant : ((handlers (ι := ι) dom).within Undisturbed).Invariant fun s =>
    (∃ dom, Ok dom s) ∧ Intact s where
  init := by
    rintro s ⟨hok, hq⟩
    have hno : ∀ i, (s.page i).reads = none ∧ ¬(s.page i).pending := by
      intro i
      unfold Sharer.reads Sharer.pending
      rcases hq i with e | e | e <;> simp [e]
    refine ⟨⟨dom, hok⟩, fun i f hf => ?_, fun i hp => absurd hp (hno i).2,
      fun i _ hp => absurd hp (hno i).2⟩
    rw [(hno i).1] at hf
    cases hf
  step := by
    rintro s o s' - ⟨⟨dom', hok⟩, h⟩ ⟨hs, hu⟩
    obtain ⟨op, rfl⟩ := Step.exists_op hs
    refine ⟨?_, h.step hok hu hs⟩
    rcases hok.step hs with ⟨-, hok'⟩ | ⟨-, f, -, hok'⟩
    · exact ⟨_, hok'⟩
    · exact ⟨_, hok'⟩

/-- The copy that a handler enters is what its page contained when the process faulted, in every
interleaving in which nobody writes to the frame or frees it before the handler has copied it. -/
theorem copies_intact (h : ((handlers dom).within Undisturbed).Reachable s) : Faithful s := by
  intro i mem hst
  apply (undisturbed_invariant.reachable h).2.reads
  rw [Sharer.reads, hst]

end Copies

/-! ## Two pages on one frame -/

/-- The other process asks for the count while the handler has given up its reference and not yet
copied the frame: it keeps the frame, and writes to it. -/
theorem copy_overwritten : ∃ (_ : Layout) (dom : ℕ → Prop) (s : State (Fin 2)),
    (handlers dom).Reachable s ∧ ¬Faithful s := by
  let _ := sampleLayout
  have h := Lts.Reachable.init twins_init
  have h := h.step (Step.fault (i := 0) rfl rfl rfl)
  have h := h.step (Step.get_refcount (i := 0) rfl rfl)
  have h := h.step (Step.decrease_refcount (i := 0) rfl (by decide) rfl)
  have h := h.step (Step.fault (i := 1) rfl rfl rfl)
  have h := h.step (Step.get_refcount (i := 1) rfl rfl)
  have h := h.step (Step.grant (i := 1) rfl (by decide))
  have h := h.step (@Step.write _ _ _ _ 1 0 0x41 rfl rfl)
  have h := h.step (Step.kalloc (i := 0) rfl rfl)
  have h := h.step (Step.memmove (i := 0) rfl)
  refine ⟨_, _, _, h, fun hf => ?_⟩
  have heq := congrFun (hf 0 2001 rfl) 0
  revert heq
  decide

/-- Both handlers copy the frame, after both have given up their references. -/
theorem copies_intact_twins : ∃ (_ : Layout) (dom : ℕ → Prop) (s : State (Fin 2)),
    ((handlers dom).within Undisturbed).Reachable s ∧ (s.page 0).stage = .copied 2001 ∧
      (s.page 1).stage = .copied 2002 ∧ Faithful s := by
  let _ := sampleLayout
  have h := Lts.Reachable.init (M := (handlers twinFrames).within Undisturbed) twins_init
  have h := h.step ⟨Step.fault (i := 0) rfl rfl rfl, fun _ _ hd => by cases hd⟩
  have h := h.step ⟨Step.get_refcount (i := 0) rfl rfl, fun _ _ hd => by cases hd⟩
  have h := h.step ⟨Step.fault (i := 1) rfl rfl rfl, fun _ _ hd => by cases hd⟩
  have h := h.step ⟨Step.get_refcount (i := 1) rfl rfl, fun _ _ hd => by cases hd⟩
  have h := h.step ⟨Step.decrease_refcount (i := 0) rfl (by decide) rfl, fun _ _ hd => by cases hd⟩
  have h := h.step ⟨Step.decrease_refcount (i := 1) rfl (by decide) rfl, fun _ _ hd => by cases hd⟩
  have h := h.step ⟨Step.kalloc (i := 0) rfl rfl, fun _ _ hd => by cases hd⟩
  have h := h.step ⟨Step.kalloc (i := 1) rfl rfl, fun _ _ hd => by cases hd⟩
  have h := h.step ⟨Step.memmove (i := 0) rfl, fun _ _ hd => by cases hd⟩
  have h := h.step ⟨Step.memmove (i := 1) rfl, fun _ _ hd => by cases hd⟩
  exact ⟨_, _, _, h, rfl, rfl, copies_intact h⟩

end OsLabs.Cow.Smp
