import OsLabs.Xv6.Kalloc

/-!
# The allocator without reference counts

`kalloc.c` of the unmodified tree, which the lazy tree shares: a free list only. Its ledger
`Base.Balanced` allows one claim on a frame.
-/

namespace OsLabs.Base

open Xv6 StateError Ledger

/-- `struct kmem`. -/
structure Kmem where
  freelist : List ℕ

variable [L : Layout]

/-- Junk the frame and put it on the free list. -/
def kfree (f : ℕ) : EStateM Panic (Phys Kmem) Unit := do
  if f * PGSIZE + KERNBASE < L.end_ ∨ PHYSTOP ≤ f * PGSIZE then throw .kfree
  else modify fun s => { s.fill f junkPage with kmem := ⟨f :: s.kmem.freelist⟩ }

/-- Pop the first free frame. -/
def kalloc : EStateM Panic (Phys Kmem) (Option ℕ) := do
  let s ← get
  match s.kmem.freelist with
  | [] => do
    set { s with oom := true }
    return none
  | r :: next => do
    set { s with kmem := (⟨next⟩ : Kmem) }
    return some r

instance : Kalloc Kmem := ⟨kalloc, kfree, Kmem.freelist, ⟨[]⟩⟩

/-- The free list accounts for every frame, and no frame has two owners. -/
structure Balanced (dom : ℕ → Prop) (k : Kmem) (o : Ledger ℕ) : Prop where
  exact : Exact dom k.freelist o
  inRange : ∀ f, dom f → InRange f
  single : ∀ f, refs o f ≤ 1

variable {dom : ℕ → Prop} {s : Phys Kmem} {o h : Ledger ℕ} {f : ℕ}

theorem kalloc_spec (hb : Balanced dom s.kmem o) :
    wp kalloc (fun r s' => match r with
      | none => s' = { s with oom := true } ∧ s.kmem.freelist = []
      | some f => o f = 0 ∧ (∀ h, IsClaim f h → Balanced dom s'.kmem (o + h)) ∧ s'.mem = s.mem ∧
          s'.oom = s.oom ∧ s.kmem.freelist = f :: s'.kmem.freelist)
      (fun _ _ => False) s := by
  unfold kalloc
  simp only [wp_bind, wp_get]
  cases hfl : s.kmem.freelist with
  | nil => simp only [wp_bind, wp_set, wp_pure, and_self]
  | cons r next =>
    have hex := hb.exact
    rw [hfl] at hex
    have hr0 : o r = 0 := hex.free_unheld r (by simp)
    simp only [wp_bind, wp_set, wp_pure]
    refine ⟨hr0, fun h hc => ⟨hex.pop hc, hb.inRange, fun g => ?_⟩, trivial, trivial, trivial⟩
    rw [refs_add]
    by_cases hg : g = r
    · rw [hg, refs_eq_zero.mpr hr0, hc.refs_self]
    · rw [hc.refs_ne hg]
      exact hb.single g

theorem kfree_spec (hc : IsClaim f h) (hb : Balanced dom s.kmem (o + h)) :
    wp (kfree f) (fun _ s' => Balanced dom s'.kmem o ∧ Keeps o s s' ∧
      (∀ g, g ≠ f → s'.mem g = s.mem g) ∧ s'.oom = s.oom) (fun _ _ => False) s := by
  have hf0 : o f = 0 := by
    have h₁ := hb.single f
    rw [refs_add, hc.refs_self] at h₁
    exact refs_eq_zero.mp (by omega)
  have hheld : (o + h) f ≠ 0 := by
    rw [Pi.add_apply, hf0, zero_add]
    exact hc.self_ne_zero
  have hin := hb.inRange f (hb.exact.held_dom f hheld)
  unfold kfree
  simp only [wp_ite, wp_throw, wp_modify]
  refine ⟨fun hbad => ?_, fun _ => ⟨⟨hb.exact.push hc hf0, hb.inRange, fun g => ?_⟩,
    Keeps.fill junkPage hf0, fun g hg => s.fill_mem_ne f junkPage hg, rfl⟩⟩
  · rcases hbad with hbad | hbad
    · exact absurd hin.1 (by omega)
    · exact absurd hin.2 (by omega)
  · have h₁ := hb.single g
    rw [refs_add] at h₁
    omega

theorem kfree_seed (hb : Balanced dom s.kmem o) (hd : ¬dom f) (hin : InRange f) :
    wp (kfree f) (fun _ s' => Balanced (fun g => dom g ∨ g = f) s'.kmem o ∧ s'.oom = s.oom ∧
      s'.kmem.freelist = f :: s.kmem.freelist) (fun _ _ => False) s := by
  unfold kfree
  simp only [wp_ite, wp_throw, wp_modify]
  refine ⟨fun hbad => ?_, fun _ => ⟨⟨hb.exact.seed hd, fun g hg => ?_, hb.single⟩, rfl, trivial⟩⟩
  · rcases hbad with hbad | hbad
    · exact absurd hin.1 (by omega)
    · exact absurd hin.2 (by omega)
  · rcases hg with hg | rfl
    · exact hb.inRange g hg
    · exact hin

theorem kfree_out (hf : ¬InRange f) :
    wp (kfree f) (fun _ _ => False) (fun e _ => e = .kfree) s := by
  unfold kfree
  rw [if_pos (not_inRange.mp hf)]
  rfl

instance : LawfulKalloc Kmem where
  Acct := Balanced
  acct_init := ⟨.empty, fun _ h => h.elim, fun _ => by simp⟩
  exact_of_acct := Balanced.exact
  inRange hb := hb.inRange _
  kalloc_spec := kalloc_spec
  kfree_spec := kfree_spec
  kfree_seed := kfree_seed
  kfree_out := kfree_out

end OsLabs.Base
