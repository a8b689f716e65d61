import OsLabs.Xv6.Kalloc

/-!
# The reference-counting allocator of the copy-on-write tree

`kalloc.c` of the copy-on-write tree: the free list with a count of references for every frame.
`Cow.Balanced` is its ledger: the count of a frame is its number of claims. The critical
sections of `kmem.lock` are single steps of the atomic model, so the lock itself is left out.
-/

namespace OsLabs.Cow

open Xv6 StateError Ledger

/-- `struct kmem`. -/
structure Kmem where
  freelist : List ℕ
  refcount_list : ℕ → ℤ

/-- Set the count of frame `f`. -/
def Kmem.setRef (k : Kmem) (f : ℕ) (n : ℤ) : Kmem :=
  { k with refcount_list := Function.update k.refcount_list f n }

@[simp] theorem Kmem.setRef_freelist (k : Kmem) (f : ℕ) (n : ℤ) :
    (k.setRef f n).freelist = k.freelist := rfl

theorem Kmem.setRef_apply (k : Kmem) (f : ℕ) (n : ℤ) (g : ℕ) :
    (k.setRef f n).refcount_list g = if g = f then n else k.refcount_list g := by
  by_cases h : g = f
  · subst h; simp [setRef]
  · simp [setRef, h]

variable [L : Layout]

/-- Drop a reference to the frame, and put it on the free list when it was the last one. A frame
whose count is already 0, as at boot, goes on the list at once. -/
def kfree (f : ℕ) : EStateM Panic (Phys Kmem) Unit := do
  if f * PGSIZE + KERNBASE < L.end_ ∨ PHYSTOP ≤ f * PGSIZE then throw .kfree
  else do
    let s ← get
    let n := s.kmem.refcount_list f
    if n < 0 then throw .kfreeWTF
    else do
      let n := if n > 0 then n - 1 else n
      let k := s.kmem.setRef f n
      if n = 0 then set { s.fill f junkPage with kmem := { k with freelist := f :: k.freelist } }
      else set { s with kmem := k }

/-- Pop the first free frame and give it its first reference. -/
def kalloc : EStateM Panic (Phys Kmem) (Option ℕ) := do
  let s ← get
  match s.kmem.freelist with
  | [] => do
    set { s with oom := true }
    return none
  | r :: next =>
    if s.kmem.refcount_list r ≠ 0 then throw .kallocRefcount
    else do
      set { s with kmem := { s.kmem.setRef r 1 with freelist := next } }
      return some r

def get_count_of_free_pages_right_now (k : Kmem) : ℕ := k.freelist.length

def increase_refcount (f : ℕ) : EStateM Panic (Phys Kmem) Unit :=
  modify fun s => { s with kmem := s.kmem.setRef f (s.kmem.refcount_list f + 1) }

def get_refcount (f : ℕ) : EStateM Panic (Phys Kmem) ℤ := do
  return (← get).kmem.refcount_list f

def decrease_refcount (f : ℕ) : EStateM Panic (Phys Kmem) Unit :=
  modify fun s => { s with kmem := s.kmem.setRef f (s.kmem.refcount_list f - 1) }

instance : Kalloc Kmem := ⟨kalloc, kfree, Kmem.freelist, ⟨[], fun _ => 0⟩⟩

/-- The free list accounts for every frame and the counts are the numbers of claims. -/
structure Balanced (dom : ℕ → Prop) (k : Kmem) (o : Ledger ℕ) : Prop where
  exact : Exact dom k.freelist o
  inRange : ∀ f, dom f → InRange f
  count : ∀ f, k.refcount_list f = refs o f

variable {dom : ℕ → Prop} {s : Phys Kmem} {o h : Ledger ℕ} {f : ℕ}

theorem kalloc_spec (hb : Balanced dom s.kmem o) :
    wp kalloc (fun r s' => match r with
      | none => s' = { s with oom := true } ∧ s.kmem.freelist = []
      | some f => o f = 0 ∧ (∀ h, IsClaim f h → Balanced dom s'.kmem (o + h)) ∧ s'.mem = s.mem ∧
          s'.oom = s.oom ∧ s.kmem.freelist = f :: s'.kmem.freelist)
      (fun _ _ => False) s := by
  unfold kalloc
  simp only [wp_bind, wp_get]
  cases hfl : s.kmem.freelist with
  | nil => simp only [wp_bind, wp_set, wp_pure, and_self]
  | cons r next =>
    have hex := hb.exact
    rw [hfl] at hex
    have hr0 : o r = 0 := hex.free_unheld r (by simp)
    have hcnt : s.kmem.refcount_list r = 0 := by
      rw [hb.count, refs_eq_zero.mpr hr0]
      rfl
    simp only [wp_ite, wp_throw, wp_bind, wp_set, wp_pure]
    refine ⟨fun hne => hne hcnt, fun _ => ⟨hr0, fun h hc => ⟨hex.pop hc, hb.inRange, ?_⟩,
      trivial, trivial, trivial⟩⟩
    intro g
    change (s.kmem.setRef r 1).refcount_list g = _
    rw [Kmem.setRef_apply, refs_add, Nat.cast_add, ← hb.count g]
    by_cases hg : g = r
    · subst hg
      simp [hcnt, hc.refs_self]
    · simp [hg, hc.refs_ne hg]

theorem kfree_spec (hc : IsClaim f h) (hb : Balanced dom s.kmem (o + h)) :
    wp (kfree f) (fun _ s' => Balanced dom s'.kmem o ∧ Keeps o s s' ∧
      (∀ g, g ≠ f → s'.mem g = s.mem g) ∧ s'.oom = s.oom) (fun _ _ => False) s := by
  have hheld : (o + h) f ≠ 0 := fun e => hc.self_ne_zero (by
    rw [Pi.add_apply, add_eq_zero] at e
    exact e.2)
  have hin := hb.inRange f (hb.exact.held_dom f hheld)
  have hcnt : s.kmem.refcount_list f = refs o f + 1 := by
    rw [hb.count f, refs_add, hc.refs_self]
    rfl
  have hcount : ∀ g, (s.kmem.setRef f (refs o f)).refcount_list g = refs o g := by
    intro g
    rw [Kmem.setRef_apply]
    by_cases hg : g = f
    · rw [if_pos hg, hg]
    · rw [if_neg hg, hb.count, refs_add, hc.refs_ne hg, add_zero]
  unfold kfree
  simp only [wp_ite, wp_throw, wp_bind, wp_get, wp_set, hcnt]
  refine ⟨fun hbad => ?_, fun _ => ⟨fun hneg => by omega, fun _ => ?_⟩⟩
  · rcases hbad with hbad | hbad
    · exact absurd hin.1 (by omega)
    · exact absurd hin.2 (by omega)
  · have hn : (if ((refs o f : ℤ) + 1 > 0) then (refs o f : ℤ) + 1 - 1 else (refs o f : ℤ) + 1) =
        (refs o f : ℤ) := by
      rw [if_pos (by omega)]
      omega
    rw [hn]
    refine ⟨fun h0 => ?_, fun h0 => ?_⟩
    · -- the last claim: the frame is junked and goes on the free list
      have hf0 : o f = 0 := refs_eq_zero.mp (by exact_mod_cast h0)
      exact ⟨⟨hb.exact.push hc hf0, hb.inRange, hcount⟩, Keeps.fill junkPage hf0,
        fun g hg => s.fill_mem_ne f junkPage hg, rfl⟩
    · have hf0 : o f ≠ 0 := fun e => h0 (by rw [refs_eq_zero.mpr e]; rfl)
      exact ⟨⟨hb.exact.release hc hf0, hb.inRange, hcount⟩, Keeps.refl _ _, fun _ _ => trivial, trivial⟩

theorem kfree_seed (hb : Balanced dom s.kmem o) (hd : ¬dom f) (hin : InRange f) :
    wp (kfree f) (fun _ s' => Balanced (fun g => dom g ∨ g = f) s'.kmem o ∧ s'.oom = s.oom ∧
      s'.kmem.freelist = f :: s.kmem.freelist) (fun _ _ => False) s := by
  have hf0 : o f = 0 := by
    by_contra h0
    exact hd (hb.exact.held_dom f h0)
  have hcnt : s.kmem.refcount_list f = 0 := by
    rw [hb.count, refs_eq_zero.mpr hf0]
    rfl
  unfold kfree
  simp only [wp_ite, wp_throw, wp_bind, wp_get, wp_set, hcnt]
  refine ⟨fun hbad => ?_, fun _ => ⟨fun hneg => by omega, fun _ => ⟨fun _ => ?_, fun h0 => ?_⟩⟩⟩
  · rcases hbad with hbad | hbad
    · exact absurd hin.1 (by omega)
    · exact absurd hin.2 (by omega)
  · refine ⟨⟨hb.exact.seed hd, fun g hg => ?_, fun g => ?_⟩, rfl, rfl⟩
    · rcases hg with hg | rfl
      · exact hb.inRange g hg
      · exact hin
    · change (s.kmem.setRef f _).refcount_list g = _
      rw [Kmem.setRef_apply]
      by_cases hg : g = f
      · subst hg
        simp [refs_eq_zero.mpr hf0]
      · rw [if_neg hg, hb.count]
  · simp at h0

theorem kfree_out (hf : ¬InRange f) :
    wp (kfree f) (fun _ _ => False) (fun e _ => e = .kfree) s := by
  unfold kfree
  rw [if_pos (not_inRange.mp hf)]
  rfl

instance : LawfulKalloc Kmem where
  Acct := Balanced
  acct_init := ⟨.empty, fun _ h => h.elim, fun _ => rfl⟩
  exact_of_acct := Balanced.exact
  inRange hb := hb.inRange _
  kalloc_spec := kalloc_spec
  kfree_spec := kfree_spec
  kfree_seed := kfree_seed
  kfree_out := kfree_out

omit L in
@[simp] theorem wp_get_refcount {Q : ℤ → Phys Kmem → Prop} {E : Panic → Phys Kmem → Prop} :
    wp (get_refcount f) Q E s ↔ Q (s.kmem.refcount_list f) s := Iff.rfl

/-- One more shared claim on a frame that has one. -/
theorem increase_refcount_spec (hb : Balanced dom s.kmem o) (hf : (o f).1 ≠ 0) :
    wp (increase_refcount f) (fun _ s' => Balanced dom s'.kmem (o + shared f) ∧ s'.mem = s.mem ∧
      s'.oom = s.oom ∧ s'.kmem.freelist = s.kmem.freelist) (fun _ _ => False) s := by
  unfold increase_refcount
  simp only [wp_modify]
  refine ⟨⟨hb.exact.acquire hf, hb.inRange, fun g => ?_⟩, trivial, trivial, rfl⟩
  rw [Kmem.setRef_apply, refs_add, Nat.cast_add, ← hb.count g]
  by_cases hg : g = f
  · subst hg; simp
  · simp [hg]

omit L in
/-- The counts with a claim less. -/
theorem setRef_release (hc : ∀ g, s.kmem.refcount_list g = refs (o + shared f) g) (g : ℕ) :
    (s.kmem.setRef f (s.kmem.refcount_list f - 1)).refcount_list g = refs o g := by
  rw [Kmem.setRef_apply, hc, hc, refs_add, refs_add]
  by_cases hg : g = f
  · subst hg; simp
  · simp [hg]

/-- One claim less on a frame that keeps another. -/
theorem decrease_refcount_spec (hb : Balanced dom s.kmem (o + shared f)) (hf : o f ≠ 0) :
    wp (decrease_refcount f) (fun _ s' => Balanced dom s'.kmem o ∧ s'.mem = s.mem ∧
      s'.oom = s.oom ∧ s'.kmem.freelist = s.kmem.freelist) (fun _ _ => False) s := by
  unfold decrease_refcount
  simp only [wp_modify]
  exact ⟨⟨hb.exact.release (isClaim_shared f) hf, hb.inRange, setRef_release hb.count⟩, trivial,
    trivial, rfl⟩

end OsLabs.Cow
