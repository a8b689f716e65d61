import OsLabs.Cow.System
import OsLabs.Lib.Simulation
import Mathlib.Algebra.BigOperators.Fin
import Mathlib.Tactic.FinCases

/-!
# Fault handlers on several processors

On more than one processor the critical sections of `kmem.lock` are single steps, but the fault
handler is not: it asks for the count, gives up its reference, allocates, copies and updates its
entry, and other handlers, user writes and `wait` may come in between. `Step` are these steps, for
any number of pages that share frames in any way.

* `Ok`: the counts are the numbers of references that have not been given up, and a page that may be
  written is alone on its frame;
* `counts_settle_iff`: when all handlers are done the counts are the numbers of entries and no frame
  is lost, unless a handler has acted on a count that had dropped to 1 since it asked;
* `run_of_makeCopy`: the steps of a handler that nobody interrupts are the handler of `Cow.Vm`;
* `init_ofKernel`: the states that the kernel reaches are states to start from.
-/

namespace OsLabs.Cow.Smp

open Xv6 StateError Ledger

/-- How far the fault handler of a page has come, or what has become of its process. -/
inductive Stage
  /-- No handler is at work. -/
  | user
  /-- A write has trapped. -/
  | faulted
  /-- `get_refcount` has returned `n`. -/
  | counted (n : ℤ)
  /-- `decrease_refcount` has given up the reference. -/
  | dropped
  /-- `kalloc` has returned `mem`. -/
  | allocated (mem : ℕ)
  /-- `memmove` has filled `mem`. -/
  | copied (mem : ℕ)
  /-- The process has exited. -/
  | zombie
  /-- `freevm` has freed the page. -/
  | gone

/-- A page of a process: its entry, its handler, and, as a ghost, what it contained when the last
write trapped. -/
structure Sharer where
  pte : Pte
  stage : Stage := .user
  before : Page := zeroPage

/-- The pages `ι` of the processes, and the references from elsewhere. -/
structure State (ι : Type) where
  phys : Phys Kmem
  page : ι → Sharer
  rest : Ledger ℕ := 0

/-- What the processors do. -/
inductive Op (ι : Type)
  /-- A process writes the byte `b` to a page that it may write. -/
  | write (i : ι) (off : ℕ) (b : UInt8)
  | fault (i : ι)
  | get_refcount (i : ι)
  | decrease_refcount (i : ι)
  | kalloc (i : ι)
  | memmove (i : ι)
  /-- The handler updates its entry and returns. -/
  | setPte (i : ι)
  | exit (i : ι)
  /-- `wait` frees a page of a process that has exited. -/
  | kfree (i : ι)
  /-- The rest of the kernel gets a frame. -/
  | take
  /-- The rest of the kernel, such as `freevm` for a page table, gives a reference back. -/
  | give (f : ℕ)

variable {ι : Type} [DecidableEq ι]

/-- The page `i` after a step that leaves the physical memory `t`. -/
def State.goto (s : State ι) (i : ι) (t : Phys Kmem) (x : Sharer) : State ι :=
  { s with phys := t, page := Function.update s.page i x }

section Code

variable [Layout]

/-- The steps. A handler for which `kalloc` has no frame is followed no further. -/
inductive Step (s : State ι) : Option (Op ι) → State ι → Prop
  | write {i : ι} {off : ℕ} {b : UInt8} (h : (s.page i).stage = .user)
      (hp : (s.page i).pte.permits true = true) :
      Step s (some (.write i off b)) { s with
        phys := s.phys.fill (s.page i).pte.ppn
          (Function.update (s.phys.mem (s.page i).pte.ppn) off b) }
  | fault {i : ι} (h : (s.page i).stage = .user) (hC : (s.page i).pte.CoW = true)
      (hW : (s.page i).pte.W = false) :
      Step s (some (.fault i)) (s.goto i s.phys { s.page i with
        stage := .faulted, before := s.phys.mem (s.page i).pte.ppn })
  | get_refcount {i : ι} {n : ℤ} {t : Phys Kmem} (h : (s.page i).stage = .faulted)
      (hr : Cow.get_refcount (s.page i).pte.ppn s.phys = .ok n t) :
      Step s (some (.get_refcount i)) (s.goto i t { s.page i with stage := .counted n })
  | decrease_refcount {i : ι} {n : ℤ} {t : Phys Kmem} (h : (s.page i).stage = .counted n)
      (hn : n > 1) (hr : Cow.decrease_refcount (s.page i).pte.ppn s.phys = .ok () t) :
      Step s (some (.decrease_refcount i)) (s.goto i t { s.page i with stage := .dropped })
  | kalloc {i : ι} {mem : ℕ} {t : Phys Kmem} (h : (s.page i).stage = .dropped)
      (hr : Cow.kalloc s.phys = .ok (some mem) t) :
      Step s (some (.kalloc i)) (s.goto i t { s.page i with stage := .allocated mem })
  | memmove {i : ι} {mem : ℕ} (h : (s.page i).stage = .allocated mem) :
      Step s (some (.memmove i)) (s.goto i (s.phys.fill mem (s.phys.mem (s.page i).pte.ppn))
        { s.page i with stage := .copied mem })
  /-- The entry gets the copy. -/
  | setPte {i : ι} {mem : ℕ} (h : (s.page i).stage = .copied mem) :
      Step s (some (.setPte i)) (s.goto i s.phys { s.page i with
        pte := { U := true, P := true, W := true, ppn := mem }, stage := .user })
  /-- The frame has no other user: the entry keeps it. -/
  | grant {i : ι} {n : ℤ} (h : (s.page i).stage = .counted n) (hn : ¬n > 1) :
      Step s (some (.setPte i)) (s.goto i s.phys { s.page i with
        pte := { (s.page i).pte with CoW := false, W := true }, stage := .user })
  | exit {i : ι} (h : (s.page i).stage = .user) :
      Step s (some (.exit i)) (s.goto i s.phys { s.page i with stage := .zombie })
  | kfree {i : ι} {t : Phys Kmem} (h : (s.page i).stage = .zombie)
      (hr : Cow.kfree (s.page i).pte.ppn s.phys = .ok () t) :
      Step s (some (.kfree i)) (s.goto i t { s.page i with pte := Pte.zero, stage := .gone })
  | take {f : ℕ} {t : Phys Kmem} (hr : Cow.kalloc s.phys = .ok (some f) t) :
      Step s (some .take) { s with phys := t, rest := s.rest + excl f }
  | give {f : ℕ} {r h : Ledger ℕ} {t : Phys Kmem} (hc : IsClaim f h) (hf : s.rest = r + h)
      (hr : Cow.kfree f s.phys = .ok () t) :
      Step s (some (.give f)) { s with phys := t, rest := r }

end Code

/-! ## Who uses which frame -/

namespace Sharer

/-- The reference of a page. -/
def claim (x : Sharer) : Ledger ℕ :=
  match x.stage with
  | .dropped => 0
  | .allocated mem | .copied mem => shared mem
  | _ => Pgdir.pteHold x.pte

/-- The frame that the page has for itself. -/
def sole (x : Sharer) : Option ℕ :=
  match x.stage with
  | .user => if x.pte.W then some x.pte.ppn else none
  | .counted n => if n > 1 then none else some x.pte.ppn
  | .allocated mem | .copied mem => some mem
  | _ => none

/-- What a page has for itself, it holds. -/
theorem refs_claim_of_sole {x : Sharer} {f : ℕ} (hP : x.stage ≠ .gone → x.pte.P = true)
    (h : x.sole = some f) : refs x.claim f ≠ 0 := by
  unfold sole at h
  unfold claim
  cases hs : x.stage with
  | user =>
    simp only [hs] at h ⊢
    split at h
    · obtain rfl := Option.some.inj h
      rw [Pgdir.pteHold_of_P (hP (by rw [hs]; exact Stage.noConfusion)), refs_shared, if_pos rfl]
      exact one_ne_zero
    · cases h
  | counted n =>
    simp only [hs] at h ⊢
    split at h
    · cases h
    · obtain rfl := Option.some.inj h
      rw [Pgdir.pteHold_of_P (hP (by rw [hs]; exact Stage.noConfusion)), refs_shared, if_pos rfl]
      exact one_ne_zero
  | allocated mem | copied mem =>
    simp only [hs] at h ⊢
    obtain rfl := Option.some.inj h
    rw [refs_shared, if_pos rfl]
    exact one_ne_zero
  | faulted | dropped | zombie | gone =>
    simp only [hs] at h
    cases h

end Sharer

namespace State

variable [Fintype ι]

/-- All references. -/
def ledger (s : State ι) : Ledger ℕ := s.rest + ∑ i, (s.page i).claim

/-- All references but that of the page `i`. -/
def others (s : State ι) (i : ι) : Ledger ℕ :=
  s.rest + ∑ j ∈ Finset.univ.erase i, (s.page j).claim

/-- The number of entries that map the frame. -/
def mapping (s : State ι) (f : ℕ) : ℕ :=
  (Finset.univ.filter fun i => (s.page i).pte.P = true ∧ (s.page i).pte.ppn = f).card

/-- No handler is at work. -/
def Quiet (s : State ι) : Prop :=
  ∀ i, (s.page i).stage = .user ∨ (s.page i).stage = .zombie ∨ (s.page i).stage = .gone

variable {s : State ι} {i : ι} {t : Phys Kmem} {x : Sharer} {f : ℕ}

omit [Fintype ι] in
@[simp] theorem page_goto_self : (s.goto i t x).page i = x := Function.update_self ..

omit [Fintype ι] in
theorem page_goto_ne {j : ι} (h : j ≠ i) : (s.goto i t x).page j = s.page j :=
  Function.update_of_ne h ..

omit [Fintype ι] in
@[simp] theorem goto_goto {t' : Phys Kmem} {y : Sharer} :
    (s.goto i t x).goto i t' y = s.goto i t' y := by
  simp [goto]

theorem ledger_eq (s : State ι) (i : ι) : s.ledger = s.others i + (s.page i).claim := by
  rw [ledger, others, ← Finset.sum_erase_add _ _ (Finset.mem_univ i), add_assoc]

theorem ledger_goto : (s.goto i t x).ledger = s.others i + x.claim := by
  have hsum : ∑ j ∈ Finset.univ.erase i, ((s.goto i t x).page j).claim =
      ∑ j ∈ Finset.univ.erase i, (s.page j).claim :=
    Finset.sum_congr rfl fun j hj => by rw [page_goto_ne (Finset.ne_of_mem_erase hj)]
  rw [ledger_eq _ i, page_goto_self, others, others, hsum]
  rfl

omit [DecidableEq ι] in
/-- When no handler is at work the references are the entries. -/
theorem Quiet.refs_eq (h : s.Quiet) (hf : s.rest f = 0) : refs s.ledger f = s.mapping f := by
  rw [ledger, refs_add, refs_eq_zero.mpr hf, zero_add, refs_sum, mapping, Finset.card_filter]
  refine Finset.sum_congr rfl fun i _ => ?_
  have hc : (s.page i).claim = Pgdir.pteHold (s.page i).pte := by
    unfold Sharer.claim
    rcases h i with e | e | e <;> rw [e]
  rw [hc]
  cases hP : (s.page i).pte.P with
  | true =>
    rw [Pgdir.pteHold_of_P hP, refs_shared]
    simp [eq_comm]
  | false =>
    rw [Pgdir.pteHold_of_not_P hP]
    simp

end State

/-! ## The counts -/

section Counts

variable [Layout] [Fintype ι] {dom dom' : ℕ → Prop} {s s' : State ι} {i j : ι} {t : Phys Kmem}
variable {x : Sharer} {f : ℕ} {op : Op ι}

/-- The counts are the references, and nobody else uses a frame that a page has for itself. -/
structure Ok (dom : ℕ → Prop) (s : State ι) : Prop where
  acct : Balanced dom s.phys.kmem s.ledger
  present : ∀ i, (s.page i).stage ≠ .gone → (s.page i).pte.P = true
  sole : ∀ i f, (s.page i).sole = some f → refs s.ledger f ≤ 1

/-- A step of one page. -/
theorem Ok.goto (h : Ok dom s) (hb : Balanced dom' t.kmem (s.others i + x.claim))
    (hg : Grow s.ledger (s.others i + x.claim)) (hP : x.stage ≠ .gone → x.pte.P = true)
    (hs : ∀ f, x.sole = some f → refs (s.others i + x.claim) f ≤ 1) : Ok dom' (s.goto i t x) := by
  refine ⟨?_, fun j => ?_, fun j f => ?_⟩
  · rw [State.ledger_goto]
    exact hb
  · rcases eq_or_ne j i with rfl | hj
    · rw [State.page_goto_self]
      exact hP
    · rw [State.page_goto_ne hj]
      exact h.present j
  · rw [State.ledger_goto]
    rcases eq_or_ne j i with rfl | hj
    · rw [State.page_goto_self]
      exact hs f
    · rw [State.page_goto_ne hj]
      intro hf
      have := h.sole j f hf
      have := hg f
      omega

/-- A step of one page that keeps its reference. -/
theorem Ok.goto_same (h : Ok dom s) (hk : t.kmem = s.phys.kmem) (hc : x.claim = (s.page i).claim)
    (hP : x.stage ≠ .gone → x.pte.P = true)
    (hs : ∀ f, x.sole = some f → refs s.ledger f ≤ 1) : Ok dom (s.goto i t x) := by
  have hl : s.others i + x.claim = s.ledger := by rw [hc, ← s.ledger_eq]
  apply h.goto
  · rw [hl, hk]
    exact h.acct
  · rw [hl]
    exact Grow.refl _
  · exact hP
  · rw [hl]
    exact hs

/-- The count of a frame that a page maps and has not given up. -/
theorem Ok.count (h : Ok dom s) (hc : (s.page i).claim = shared f) :
    s.phys.kmem.refcount_list f = refs (s.others i) f + 1 := by
  rw [h.acct.count, s.ledger_eq i, hc, refs_add, refs_shared, if_pos rfl]
  rfl

/-- `kfree` does not panic when a page is reaped. -/
theorem Ok.exists_kfree (h : Ok dom s) (hst : (s.page i).stage = .zombie) :
    ∃ t, Cow.kfree (s.page i).pte.ppn s.phys = .ok () t := by
  have hc : (s.page i).claim = shared (s.page i).pte.ppn := by
    rw [Sharer.claim, hst]
    exact Pgdir.pteHold_of_P (h.present i (by rw [hst]; exact Stage.noConfusion))
  have hb := h.acct
  rw [s.ledger_eq i, hc] at hb
  obtain ⟨_, t, ht, -⟩ := wp_ok (kfree_spec (isClaim_shared _) hb)
  exact ⟨t, ht⟩

/-- Two pages do not use a frame that one of them has for itself. -/
theorem Ok.eq_of_sole (h : Ok dom s) (hi : (s.page i).sole = some f)
    (hj : refs (s.page j).claim f ≠ 0) : j = i := by
  by_contra hne
  have hle := h.sole i f hi
  have hself := Sharer.refs_claim_of_sole (h.present i) hi
  have hmem : j ∈ Finset.univ.erase i := Finset.mem_erase.mpr ⟨hne, Finset.mem_univ j⟩
  rw [s.ledger_eq i, State.others, ← Finset.sum_erase_add _ _ hmem, refs_add, refs_add,
    refs_add] at hle
  omega

/-- A handler gives up its reference only if there is still another one. -/
def Rechecked (s : State ι) (o : Option (Op ι)) (_ : State ι) : Prop :=
  ∀ i, o = some (.decrease_refcount i) → 1 < s.phys.kmem.refcount_list (s.page i).pte.ppn

/-- Every step keeps the counts. A handler that gives up the last reference loses the frame. -/
theorem Ok.step (h : Ok dom s) (hs : Step s (some op) s') :
    Rechecked s (some op) s' ∧ Ok dom s' ∨
      ¬Rechecked s (some op) s' ∧ ∃ f, dom f ∧ Ok (fun g => dom g ∧ g ≠ f) s' := by
  cases hs with
  | @write i off b hu hp => exact Or.inl ⟨fun _ he => (by cases he), h.acct, h.present, h.sole⟩
  | @fault i hu hC hW =>
    refine Or.inl ⟨fun _ he => (by cases he), ?_⟩
    apply h.goto_same rfl
    · rw [Sharer.claim, Sharer.claim, hu]
    · exact fun _ => h.present i (by rw [hu]; exact Stage.noConfusion)
    · exact fun _ hf => by cases hf
  | @get_refcount i n t hst hr =>
    refine Or.inl ⟨fun _ he => (by cases he), ?_⟩
    have hP := h.present i (by rw [hst]; exact Stage.noConfusion)
    have hc : (s.page i).claim = shared (s.page i).pte.ppn := by
      rw [Sharer.claim, hst]
      exact Pgdir.pteHold_of_P hP
    cases hr
    apply h.goto_same rfl
    · rw [Sharer.claim, Sharer.claim, hst]
    · exact fun _ => hP
    · intro f hf
      simp only [Sharer.sole] at hf
      split at hf
      · cases hf
      · obtain rfl := Option.some.inj hf
        have := h.acct.count (s.page i).pte.ppn
        omega
  | @decrease_refcount i n t hst hn hr =>
    have hP := h.present i (by rw [hst]; exact Stage.noConfusion)
    have hc : (s.page i).claim = shared (s.page i).pte.ppn := by
      rw [Sharer.claim, hst]
      exact Pgdir.pteHold_of_P hP
    have hb := h.acct
    rw [s.ledger_eq i, hc] at hb
    have hcount := h.count hc
    have hgrow : Grow s.ledger (s.others i + 0) := by
      rw [s.ledger_eq i]
      exact Grow.of_le fun f => by rw [refs_add, refs_add, refs_zero]; omega
    rcases eq_or_ne (s.others i (s.page i).pte.ppn) 0 with h0 | h0
    · have hdom := h.acct.exact.held_dom (s.page i).pte.ppn (by
        rw [← refs_pos]
        have := h.acct.count (s.page i).pte.ppn
        omega)
      have hone : ¬1 < s.phys.kmem.refcount_list (s.page i).pte.ppn := by
        rw [hcount, refs_eq_zero.mpr h0]
        decide
      refine Or.inr ⟨fun hc => hone (hc i rfl), _, hdom, ?_⟩
      cases hr
      refine h.goto (x := { s.page i with stage := .dropped }) ?_ hgrow (fun _ => hP)
        fun _ hf => by cases hf
      change Balanced _ (s.phys.kmem.setRef _ _) (s.others i + 0)
      rw [add_zero]
      exact ⟨hb.exact.lose (isClaim_shared _) h0, fun f hf => hb.inRange f hf.1,
        setRef_release hb.count⟩
    · refine Or.inl ⟨fun j he => ?_, ?_⟩
      · obtain rfl := Op.decrease_refcount.inj (Option.some.inj he)
        have := refs_pos.mpr h0
        omega
      have hspec := of_ok (decrease_refcount_spec hb h0) hr
      refine h.goto (x := { s.page i with stage := .dropped }) ?_ hgrow (fun _ => hP)
        fun _ hf => by cases hf
      change Balanced dom t.kmem (s.others i + 0)
      rw [add_zero]
      exact hspec.1
  | @kalloc i mem t hst hr =>
    refine Or.inl ⟨fun _ he => (by cases he), ?_⟩
    have hc : (s.page i).claim = 0 := by rw [Sharer.claim, hst]
    have hb := h.acct
    rw [s.ledger_eq i, hc, add_zero] at hb
    obtain ⟨hmem, hb', -⟩ := of_ok (kalloc_spec hb) hr
    have hle : refs (s.others i + shared mem) mem ≤ 1 := by
      rw [refs_add, refs_eq_zero.mpr hmem, refs_shared, if_pos rfl]
    apply h.goto
    · exact hb' _ (isClaim_shared mem)
    · rw [s.ledger_eq i, hc, add_zero]
      exact Grow.add_claim hmem (isClaim_shared mem)
    · exact fun _ => h.present i (by rw [hst]; exact Stage.noConfusion)
    · intro f hf
      obtain rfl := Option.some.inj hf
      exact hle
  | @memmove i mem hst =>
    refine Or.inl ⟨fun _ he => (by cases he), ?_⟩
    refine h.goto_same ?_ ?_ ?_ ?_
    · rfl
    · rw [Sharer.claim, Sharer.claim, hst]
    · exact fun _ => h.present i (by rw [hst]; exact Stage.noConfusion)
    · intro f hf
      obtain rfl := Option.some.inj hf
      exact h.sole i mem (by rw [Sharer.sole, hst])
  | @setPte i mem hst =>
    refine Or.inl ⟨fun _ he => (by cases he), ?_⟩
    apply h.goto_same rfl
    · rw [Sharer.claim, Sharer.claim, hst]
      exact Pgdir.pteHold_of_P rfl
    · exact fun _ => rfl
    · intro f hf
      obtain rfl := Option.some.inj hf
      exact h.sole i mem (by rw [Sharer.sole, hst])
  | @grant i n hst hn =>
    refine Or.inl ⟨fun _ he => (by cases he), ?_⟩
    have hP := h.present i (by rw [hst]; exact Stage.noConfusion)
    apply h.goto_same rfl
    · rw [Sharer.claim, Sharer.claim, hst]
      rfl
    · exact fun _ => hP
    · intro f hf
      obtain rfl := Option.some.inj hf
      exact h.sole i _ (by rw [Sharer.sole, hst]; exact if_neg hn)
  | @exit i hu =>
    refine Or.inl ⟨fun _ he => (by cases he), ?_⟩
    apply h.goto_same rfl
    · rw [Sharer.claim, Sharer.claim, hu]
    · exact fun _ => h.present i (by rw [hu]; exact Stage.noConfusion)
    · exact fun _ hf => by cases hf
  | @kfree i t hst hr =>
    refine Or.inl ⟨fun _ he => (by cases he), ?_⟩
    have hP := h.present i (by rw [hst]; exact Stage.noConfusion)
    have hc : (s.page i).claim = shared (s.page i).pte.ppn := by
      rw [Sharer.claim, hst]
      exact Pgdir.pteHold_of_P hP
    have hb := h.acct
    rw [s.ledger_eq i, hc] at hb
    obtain ⟨hb', -⟩ := of_ok (kfree_spec (isClaim_shared _) hb) hr
    apply h.goto
    · change Balanced dom t.kmem (s.others i + 0)
      rwa [add_zero]
    · rw [s.ledger_eq i]
      exact Grow.of_le fun f => by
        change refs (s.others i + 0) f ≤ _
        rw [refs_add, refs_add, refs_zero]
        omega
    · exact fun hne => absurd rfl hne
    · exact fun _ hf => by cases hf
  | @take f t hr =>
    refine Or.inl ⟨fun _ he => (by cases he), ?_⟩
    obtain ⟨hf0, hb, -⟩ := of_ok (kalloc_spec h.acct) hr
    have hl : s.rest + excl f + ∑ i, (s.page i).claim = s.ledger + excl f := by
      rw [State.ledger]
      abel
    refine ⟨?_, h.present, fun i g hg => ?_⟩
    · change Balanced dom t.kmem (s.rest + excl f + ∑ i, (s.page i).claim)
      rw [hl]
      exact hb _ (isClaim_excl f)
    · change refs (s.rest + excl f + ∑ i, (s.page i).claim) g ≤ 1
      rw [hl]
      have := h.sole i g hg
      have := Grow.add_claim hf0 (isClaim_excl f) g
      omega
  | @give f r c t hc hf hr =>
    refine Or.inl ⟨fun _ he => (by cases he), ?_⟩
    have hl : s.ledger = r + ∑ i, (s.page i).claim + c := by
      rw [State.ledger, hf]
      abel
    have hb := h.acct
    rw [hl] at hb
    obtain ⟨hb', -⟩ := of_ok (kfree_spec hc hb) hr
    refine ⟨hb', h.present, fun i g hg => ?_⟩
    have hle := h.sole i g hg
    rw [hl, refs_add] at hle
    exact (Nat.le_add_right _ _).trans hle

/-- The pages share frames, and their processes and `wait` take their steps in any order. -/
def handlers (dom : ℕ → Prop) : Lts (Op ι) (State ι) where
  init s := Ok dom s ∧ s.Quiet
  step := Step

omit [DecidableEq ι] [Layout] [Fintype ι] in
/-- Every step is an operation. -/
theorem Step.exists_op [DecidableEq ι] [Layout] {o : Option (Op ι)} (h : Step s o s') :
    ∃ op, o = some op := by
  cases h <;> exact ⟨_, rfl⟩

/-- A frame that is lost stays lost. -/
def Lost (dom : ℕ → Prop) (s : State ι) (f : ℕ) : Prop :=
  dom f ∧ ∃ dom' : ℕ → Prop, ¬dom' f ∧ Ok dom' s

theorem Lost.step (h : Lost dom s f) (hs : Step s (some op) s') : Lost dom s' f := by
  obtain ⟨hf, dom', hf', hok⟩ := h
  rcases hok.step hs with ⟨-, hok'⟩ | ⟨-, g, -, hok'⟩
  · exact ⟨hf, dom', hf', hok'⟩
  · exact ⟨hf, _, fun h => hf' h.1, hok'⟩

/-- A run keeps the counts, or it loses a frame. -/
theorem run_cases {s₀ : State ι} {l : List (Op ι)} (h₀ : (handlers dom).init s₀)
    (h : (handlers dom).Run s₀ l s) :
    ((handlers dom).within Rechecked).Run s₀ l s ∧ Ok dom s ∨ ∃ f, Lost dom s f := by
  induction h with
  | refl => exact Or.inl ⟨.refl s₀, h₀.1⟩
  | step _ hs ih =>
    obtain ⟨op, rfl⟩ := Step.exists_op hs
    rcases ih with ⟨hr, hok⟩ | ⟨f, hlost⟩
    · rcases hok.step hs with ⟨hc, hok'⟩ | ⟨-, f, hf, hok'⟩
      · exact Or.inl ⟨hr.step ⟨hs, hc⟩, hok'⟩
      · exact Or.inr ⟨f, hf, _, fun h => h.2 rfl, hok'⟩
    · exact Or.inr ⟨f, hlost.step hs⟩

theorem ok_of_rechecked {s₀ : State ι} {l : List (Op ι)} (h₀ : (handlers dom).init s₀)
    (h : ((handlers dom).within Rechecked).Run s₀ l s) : Ok dom s := by
  induction h with
  | refl => exact h₀.1
  | step _ hs ih =>
    obtain ⟨op, rfl⟩ := Step.exists_op hs.1
    rcases ih.step hs.1 with ⟨-, hok⟩ | ⟨hc, -⟩
    · exact hok
    · exact absurd hs.2 hc

/-- The count of the frame is the number of the entries that map it, and the frame is free where
this is 0 and only there. -/
def Settled (s : State ι) (f : ℕ) : Prop :=
  s.phys.kmem.refcount_list f = s.mapping f ∧ (f ∈ s.phys.kmem.freelist ↔ s.mapping f = 0)

omit [DecidableEq ι] in
theorem Ok.settled (h : Ok dom s) (hq : s.Quiet) (hf : dom f) (hr : s.rest f = 0) :
    Settled s f := by
  have hrefs := hq.refs_eq hr
  refine ⟨?_, ?_⟩
  · rw [h.acct.count, hrefs]
  · rw [h.acct.exact.mem_free, ← refs_eq_zero, hrefs]
    exact and_iff_right hf

/-- When all handlers are done, the counts are right and no frame is lost: exactly after the
interleavings in which a handler gives up its reference only while there is another one. -/
theorem counts_settle_iff {s₀ : State ι} {l : List (Op ι)} (h₀ : (handlers dom).init s₀)
    (h : (handlers dom).Run s₀ l s) (hq : s.Quiet) :
    (∀ f, dom f → s.rest f = 0 → Settled s f) ↔
      ((handlers dom).within Rechecked).Run s₀ l s := by
  constructor
  · intro hset
    rcases run_cases h₀ h with ⟨hr, -⟩ | ⟨f, hf, dom', hf', hok⟩
    · exact hr
    · -- no reference to the lost frame is left, and it is not free
      have h0 : s.ledger f = 0 := by
        by_contra hne
        exact hf' (hok.acct.exact.held_dom f hne)
      have hrest : s.rest f = 0 := by
        rw [State.ledger, Pi.add_apply, add_eq_zero] at h0
        exact h0.1
      have hmap : s.mapping f = 0 := by rw [← hq.refs_eq hrest, refs_eq_zero.mpr h0]
      have hfree := (hset f hf hrest).2.mpr hmap
      exact absurd (hok.acct.exact.free_dom f hfree) hf'
  · exact fun hr f hf hrest => (ok_of_rechecked h₀ hr).settled hq hf hrest

end Counts

/-! ## One handler at a time -/

section Alone

variable [Layout] [Fintype ι] {dom : ℕ → Prop} {s : State ι} {i : ι} {d d' : Pgdir} {va : ℕ}
variable {t : Phys Kmem}

/-- A handler that nobody interrupts does what `makeCopy` does. -/
theorem run_of_makeCopy (hva : va < 2 ^ 32) (hd : d.find va = some (s.page i).pte)
    (hst : (s.page i).stage = .faulted) (hm : makeCopy d va s.phys = .ok d' t) :
    ∃ l e, (handlers dom).Run s l (s.goto i t { s.page i with pte := e, stage := .user }) ∧
      d'.find va = some e := by
  obtain ⟨hhas, hent⟩ := Pgdir.find_eq_some hva hd
  have hself := Replaced.refl d (va / 4096)
  rw [hent] at hself
  have hfind : ∀ {d₁ : Pgdir} {e : Pte}, Replaced d d₁ (va / 4096) e →
      (grantWrite d₁ va).find va = some { e with CoW := false, W := true } := by
    intro d₁ e hr
    have hg := replaced_grantWrite hr hva rfl ((hr.has _).mpr hhas)
    rw [Pgdir.find_of_has hva ((hg.has _).mpr hhas), hg.ent, if_pos rfl]
  -- each step starts where the one before it has left the page
  have hnext : ∀ {t t' : Phys Kmem} {x y : Sharer} {op : Op ι},
      (∀ s₁ : State ι, s₁.page i = x → s₁.phys = t → Step s₁ (some op) (s₁.goto i t' y)) →
      Step (s.goto i t x) (some op) (s.goto i t' y) := by
    intro t t' x y op h
    have hs := h (s.goto i t x) State.page_goto_self rfl
    rwa [State.goto_goto] at hs
  have hcount : Step s (some (.get_refcount i)) _ := Step.get_refcount hst rfl
  have hrun := (Lts.Run.refl (M := handlers dom) s).event hcount
  have hwp : wp (makeCopy d va) (fun d' t => ∃ l e, (handlers dom).Run s l
      (s.goto i t { s.page i with pte := e, stage := .user }) ∧ d'.find va = some e)
      (fun _ _ => True) s.phys := by
    unfold makeCopy
    rw [hd]
    simp only [wp_bind, wp_get_refcount]
    by_cases hn : s.phys.kmem.refcount_list (s.page i).pte.ppn > 1
    · rw [if_pos hn]
      simp only [wp_bind]
      refine wp_mono (wp_eq _ _) (fun _ s₁ h₁ => ?_) fun _ _ _ => trivial
      refine wp_mono (wp_eq _ _) (fun res s₂ h₂ => ?_) fun _ _ _ => trivial
      cases res with
      | none => exact trivial
      | some mem =>
        simp only [wp_bind, wp_modify, wp_pure]
        have hdrop : Step (s.goto i s.phys { s.page i with stage := .counted _ })
            (some (.decrease_refcount i))
            (s.goto i s₁ { s.page i with stage := .dropped }) := hnext fun r hx ht => by
          have hs := @Step.decrease_refcount ι _ _ r i _ s₁ (by rw [hx]) hn
            (by rw [hx, ht]; exact h₁)
          rwa [hx] at hs
        have halloc : Step (s.goto i s₁ { s.page i with stage := .dropped }) (some (.kalloc i))
            (s.goto i s₂ { s.page i with stage := .allocated mem }) := hnext fun r hx ht => by
          have hs := @Step.kalloc ι _ _ r i mem s₂ (by rw [hx]) (by rw [ht]; exact h₂)
          rwa [hx] at hs
        have hcopy : Step (s.goto i s₂ { s.page i with stage := .allocated mem })
            (some (.memmove i))
            (s.goto i (s₂.fill mem (s₂.mem (s.page i).pte.ppn))
              { s.page i with stage := .copied mem }) := hnext fun r hx ht => by
          have hs := @Step.memmove ι _ _ r i mem (by rw [hx])
          rwa [hx, ht] at hs
        have hset : Step (s.goto i (s₂.fill mem (s₂.mem (s.page i).pte.ppn))
            { s.page i with stage := .copied mem }) (some (.setPte i)) _ := hnext fun r hx ht => by
          have hs := @Step.setPte ι _ _ r i mem (by rw [hx])
          rwa [hx, ht] at hs
        exact ⟨_, _, (((hrun.event hdrop).event halloc).event hcopy).event hset,
          hfind (hself.store hva rfl hhas)⟩
    · rw [if_neg hn]
      have hgrant : Step (s.goto i s.phys { s.page i with stage := .counted _ })
          (some (.setPte i)) _ := hnext fun r hx ht => by
        have hs := @Step.grant ι _ _ r i _ (by rw [hx]) hn
        rwa [hx, ht] at hs
      exact ⟨_, _, hrun.event hgrant, hfind hself⟩
  exact of_ok hwp hm

end Alone

/-! ## From the kernel -/

section Kernel

variable {k : Kernel Kmem}

/-- The entry of page `v` of the process in slot `p`. -/
def entry (k : Kernel Kmem) (p : ProcPtr) (v : ℕ) : Pte :=
  if (k.proc p).state = .UNUSED then Pte.zero else (k.pgdir p).elim Pte.zero (·.ent v)

/-- The first `n` pages of all processes, and what else the kernel holds. -/
def firstPages (n : ℕ) (k : Kernel Kmem) : State (ProcPtr × Fin n) where
  phys := k.phys
  page i :=
    { pte := entry k i.1 i.2
      stage := if (entry k i.1 i.2).P then
        if (k.proc i.1).state = .ZOMBIE then .zombie else .user else .gone }
  rest := k.ownHolds + ∑ p, if (k.proc p).state = .UNUSED then 0 else
    (k.kstack p).elim 0 excl + (k.pgdir p).elim 0 fun d => excl d.frame + d.tables

/-- The pages below `KERNBASE`. -/
def ofKernel (k : Kernel Kmem) : State (ProcPtr × Fin UPAGES) := firstPages UPAGES k

theorem quiet_firstPages (n : ℕ) (k : Kernel Kmem) : (firstPages n k).Quiet := by
  intro i
  unfold firstPages
  dsimp only
  split
  · split
    · exact Or.inr (Or.inl rfl)
    · exact Or.inl rfl
  · exact Or.inr (Or.inr rfl)

theorem sum_pages {α : Type} [Fintype α] {n : ℕ} (g : α → ℕ → Ledger ℕ) :
    ∑ i : α × Fin n, g i.1 i.2 = ∑ p, ∑ v ∈ Finset.range n, g p v := by
  rw [Fintype.sum_prod_type]
  exact Finset.sum_congr rfl fun p _ => Fin.sum_univ_eq_sum_range (g p) n

theorem claim_firstPages (n : ℕ) (k : Kernel Kmem) (i : ProcPtr × Fin n) :
    ((firstPages n k).page i).claim = Pgdir.pteHold (entry k i.1 i.2) := by
  unfold Sharer.claim
  rcases quiet_firstPages n k i with e | e | e
  · rw [e]
    rfl
  · rw [e]
    rfl
  · rw [e]
    rfl

theorem ledger_firstPages (n : ℕ) (k : Kernel Kmem) : (firstPages n k).ledger =
    (firstPages n k).rest + ∑ p, ∑ v ∈ Finset.range n, Pgdir.pteHold (entry k p v) := by
  rw [State.ledger, ← sum_pages fun p v => Pgdir.pteHold (entry k p v)]
  simp only [claim_firstPages]

/-- A page that may be written is alone on its frame. -/
theorem firstPages_sole {n f : ℕ} {i : ProcPtr × Fin n}
    (h : ((firstPages n k).page i).sole = some f) :
    (entry k i.1 i.2).W = true ∧ (entry k i.1 i.2).ppn = f := by
  unfold Sharer.sole at h
  rcases quiet_firstPages n k i with e | e | e
  · rw [e] at h
    dsimp only at h
    split at h
    · exact ⟨‹_›, Option.some.inj h⟩
    · cases h
  · rw [e] at h
    cases h
  · rw [e] at h
    cases h

theorem uses_entry {n : ℕ} (hn : n = UPAGES) (k : Kernel Kmem) (p : ProcPtr) :
    ∑ v ∈ Finset.range n, Pgdir.pteHold (entry k p v) =
      if (k.proc p).state = .UNUSED then 0 else (k.pgdir p).elim 0 Pgdir.uses := by
  unfold entry
  split
  · exact Finset.sum_eq_zero fun v _ => Pgdir.pteHold_zero
  · cases k.pgdir p with
    | none => exact Finset.sum_eq_zero fun v _ => Pgdir.pteHold_zero
    | some d =>
      rw [Option.elim_some, Pgdir.uses, hn]
      rfl

/-- The references are what the kernel has allocated. -/
theorem ledger_firstPages_eq_total {n : ℕ} (hn : n = UPAGES) (k : Kernel Kmem) :
    (firstPages n k).ledger = k.total := by
  have hslot : ∀ p, ((if (k.proc p).state = .UNUSED then 0 else
      (k.kstack p).elim 0 excl + (k.pgdir p).elim 0 fun d => excl d.frame + d.tables) +
      if (k.proc p).state = .UNUSED then 0 else (k.pgdir p).elim 0 Pgdir.uses) =
      k.slotHolds p := by
    intro p
    unfold Kernel.slotHolds
    split
    · exact add_zero 0
    · rw [add_assoc]
      congr 1
      cases k.pgdir p with
      | none => rw [Option.elim_none, Option.elim_none, Option.elim_none, add_zero]
      | some d => rw [Option.elim_some, Option.elim_some, Option.elim_some, Pgdir.holds]
  rw [ledger_firstPages, Finset.sum_congr rfl fun p _ => uses_entry hn k p, firstPages, add_assoc,
    ← Finset.sum_add_distrib, Finset.sum_congr rfl fun p _ => hslot p, Kernel.total]

theorem init_firstPages [Layout] {n : ℕ} (hn : n = UPAGES) (h : Cow.Ok k) :
    (handlers InRange).init (firstPages n k) := by
  have hled : (firstPages n k).ledger = 0 + k.total := by
    rw [ledger_firstPages_eq_total hn, zero_add]
  refine ⟨⟨?_, fun i hi => ?_, fun i f hf => ?_⟩, quiet_firstPages _ k⟩
  · rw [hled]
    exact h.inv.acct
  · by_contra hP
    exact hi (if_neg hP)
  · rw [hled]
    obtain ⟨hW, rfl⟩ := firstPages_sole hf
    unfold entry at hW ⊢
    split at hW
    · cases hW
    · rename_i hl
      rw [if_neg hl]
      obtain ⟨d, -, hd, -⟩ := h.inv.live i.1 hl
      rw [hd] at hW ⊢
      have hv : (i.2 : ℕ) < UPAGES := hn ▸ i.2.isLt
      rcases h.pages i.1 d hl hd i.2 hv with hz | ⟨-, -, -, hle⟩
      · rw [Option.elim_some, hz] at hW
        cases hW
      · exact hle hW

/-- In the states that the kernel reaches the handlers find the counts in order. -/
theorem init_ofKernel [Layout] {C : Kernel Kmem → Xv6.Op → Result → Prop}
    (h : Reachable tree C k) : (handlers InRange).init (ofKernel k) :=
  init_firstPages rfl (ok_of_reachable h)

end Kernel

/-! ## Two pages on one frame -/

/-- Two processes share the frame 2000, which is full of sevens. -/
def twins : State (Fin 2) where
  phys :=
    { kmem := ⟨[2001, 2002], fun f => if f = 2000 then 2 else 0⟩
      mem := fun f _ => if f = 2000 then 7 else 0 }
  page _ := { pte := { P := true, U := true, CoW := true, ppn := 2000 } }

/-- The frames of `twins`. -/
def twinFrames (f : ℕ) : Prop := f = 2000 ∨ f = 2001 ∨ f = 2002

theorem twins_ledger : twins.ledger = shared 2000 + shared 2000 := by
  rw [State.ledger, Fin.sum_univ_two]
  exact zero_add _

theorem twins_init : letI := sampleLayout; (handlers twinFrames).init twins := by
  let _ := sampleLayout
  have h0 : ∀ f, f ≠ 2000 → twins.ledger f = 0 := fun f hf => by
    rw [twins_ledger, Pi.add_apply, shared_ne hf]
    rfl
  have h2 : twins.ledger 2000 = (2, 0) := by
    rw [twins_ledger, Pi.add_apply, shared_self]
    rfl
  have hfree : ∀ f, f ∈ twins.phys.kmem.freelist ↔ f = 2001 ∨ f = 2002 := fun _ => List.mem_pair
  have hexact : Exact twinFrames twins.phys.kmem.freelist twins.ledger := by
    refine ⟨⟨by decide, fun f hf => ?_, fun f hf => ?_, fun f hf => ?_, fun f hf => ?_⟩,
      fun f hf hf0 => ?_⟩
    · exact Or.inr ((hfree f).mp hf)
    · rcases (hfree f).mp hf with rfl | rfl
      · exact h0 _ (by decide)
      · exact h0 _ (by decide)
    · by_contra hne
      exact hf (h0 f fun e => hne (Or.inl e))
    · rcases eq_or_ne f 2000 with rfl | hne
      · rw [h2] at hf
        exact absurd rfl hf
      · rw [h0 f hne] at hf
        exact absurd rfl hf
    · rcases hf with rfl | hf
      · rw [h2] at hf0
        cases hf0
      · exact (hfree f).mpr hf
  have hcount : ∀ f, twins.phys.kmem.refcount_list f = refs twins.ledger f := by
    intro f
    rcases eq_or_ne f 2000 with rfl | hne
    · rw [refs, h2]
      rfl
    · rw [refs_eq_zero.mpr (h0 f hne)]
      exact if_neg hne
  have hrange : ∀ f, twinFrames f → InRange f := by
    rintro f (rfl | rfl | rfl)
    · exact ⟨by decide, by decide⟩
    · exact ⟨by decide, by decide⟩
    · exact ⟨by decide, by decide⟩
  exact ⟨⟨⟨hexact, hrange, hcount⟩, fun _ _ => rfl, fun _ _ hf => by cases hf⟩,
    fun _ => Or.inl rfl⟩

/-- Both ask for the count before either of them gives up its reference: both give it up, and nobody
frees the frame. -/
theorem frame_lost : ∃ (_ : Layout) (dom : ℕ → Prop) (s : State (Fin 2)) (f : ℕ),
    (handlers dom).Reachable s ∧ s.Quiet ∧ dom f ∧ s.rest f = 0 ∧ ¬Settled s f := by
  let _ := sampleLayout
  have h := Lts.Reachable.init twins_init
  have h := h.step (Step.fault (i := 0) rfl rfl rfl)
  have h := h.step (Step.fault (i := 1) rfl rfl rfl)
  have h := h.step (Step.get_refcount (i := 0) rfl rfl)
  have h := h.step (Step.get_refcount (i := 1) rfl rfl)
  have h := h.step (Step.decrease_refcount (i := 0) rfl (by decide) rfl)
  have h := h.step (Step.decrease_refcount (i := 1) rfl (by decide) rfl)
  have h := h.step (Step.kalloc (i := 0) rfl rfl)
  have h := h.step (Step.kalloc (i := 1) rfl rfl)
  have h := h.step (Step.memmove (i := 0) rfl)
  have h := h.step (Step.memmove (i := 1) rfl)
  have h := h.step (Step.setPte (i := 0) rfl)
  have h := h.step (Step.setPte (i := 1) rfl)
  refine ⟨_, _, _, 2000, h, fun i => ?_, Or.inl rfl, rfl, fun hs => ?_⟩
  · fin_cases i
    · exact Or.inl rfl
    · exact Or.inl rfl
  · have hfree := hs.2.mpr rfl
    cases hfree

/-- The handlers take turns, and the first process exits and is reaped. -/
theorem counts_settle_reaped : ∃ (_ : Layout) (dom : ℕ → Prop) (s₀ s : State (Fin 2))
    (l : List (Op (Fin 2))), (handlers dom).init s₀ ∧ (handlers dom).Run s₀ l s ∧ s.Quiet ∧
      l = [.fault 0, .fault 1, .get_refcount 0, .decrease_refcount 0, .get_refcount 1, .kalloc 0,
        .memmove 0, .setPte 0, .setPte 1, .exit 0, .kfree 0] ∧
      ∀ f, dom f → s.rest f = 0 → Settled s f := by
  let _ := sampleLayout
  have hidle : ∀ {s s' : State (Fin 2)} {op : Op (Fin 2)}, Step s (some op) s' →
      (∀ i, op ≠ .decrease_refcount i) →
      ((handlers twinFrames).within Rechecked).step s (some op) s' :=
    fun hs hop => ⟨hs, fun i he => absurd (Option.some.inj he) (hop i)⟩
  have h := Lts.Run.refl (M := (handlers twinFrames).within Rechecked) twins
  have h := h.event (hidle (Step.fault (i := 0) rfl rfl rfl) fun _ he => by cases he)
  have h := h.event (hidle (Step.fault (i := 1) rfl rfl rfl) fun _ he => by cases he)
  have h := h.event (hidle (Step.get_refcount (i := 0) rfl rfl) fun _ he => by cases he)
  have h := h.event ⟨Step.decrease_refcount (i := 0) rfl (by decide) rfl, fun i he => by
    cases he
    decide⟩
  have h := h.event (hidle (Step.get_refcount (i := 1) rfl rfl) fun _ he => by cases he)
  have h := h.event (hidle (Step.kalloc (i := 0) rfl rfl) fun _ he => by cases he)
  have h := h.event (hidle (Step.memmove (i := 0) rfl) fun _ he => by cases he)
  have h := h.event (hidle (Step.setPte (i := 0) rfl) fun _ he => by cases he)
  have h := h.event (hidle (Step.grant (i := 1) rfl (by decide)) fun _ he => by cases he)
  have h := h.event (hidle (Step.exit (i := 0) rfl) fun _ he => by cases he)
  obtain ⟨t, ht⟩ := (ok_of_rechecked twins_init h).exists_kfree (i := 0) rfl
  have h := h.event (hidle (Step.kfree (i := 0) rfl ht) fun _ he => by cases he)
  have hset := counts_settle_iff twins_init h.of_within fun i => by
    fin_cases i
    · exact Or.inr (Or.inr rfl)
    · exact Or.inl rfl
  refine ⟨_, _, twins, _, _, twins_init, h.of_within, fun i => ?_, rfl, hset.mpr h⟩
  fin_cases i
  · exact Or.inr (Or.inr rfl)
  · exact Or.inl rfl

end OsLabs.Cow.Smp
