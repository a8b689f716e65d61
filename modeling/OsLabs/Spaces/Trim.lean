import OsLabs.Spaces.View
import OsLabs.Lazy.Copy

/-!
# Directories that end with the process

In a kernel without copy-on-write, no page beyond the end of a process is present and every present
page may be written. The operations that the trees share keep this (`Trim.sbrk`), and so does the
copy for a child (`Trim.child`), where lazy pages stay lazy.
-/

namespace OsLabs.Xv6

open StateError Ledger

/-- No page beyond the end of a process of size `sz` is present, and every present page is
writable. -/
structure Trim (sz : ℕ) (d : Pgdir) : Prop where
  tight : ∀ v, pages sz ≤ v → v < UPAGES → (d.ent v).P = false
  writable : ∀ v < UPAGES, (d.ent v).P = true → (d.ent v).W = true

namespace Trim

variable {κ : Type} [Kalloc κ] {sz sz' : ℕ} {d d' : Pgdir}

/-- A present page is below the end. -/
theorem lt_pages (h : Trim sz d) {v : ℕ} (hv : v < UPAGES) (hP : (d.ent v).P = true) :
    v < pages sz := by
  by_contra hge
  rw [h.tight v (Nat.le_of_not_lt hge) hv] at hP
  cases hP

/-- Giving pages back. -/
theorem cleared {lo : ℕ} (h : Trim sz d) (hc : d.Cleared d' lo (pages sz)) :
    (∀ v, lo ≤ v → v < UPAGES → (d'.ent v).P = false) ∧
      ∀ v < UPAGES, (d'.ent v).P = true → (d'.ent v).W = true := by
  refine ⟨fun v hlo hv => ?_, fun v hv hP => ?_⟩
  · rw [hc.ent]
    split
    · rfl
    · rename_i hn
      by_contra hP
      have hP' : (d.ent v).P = true := by simpa using hP
      exact hn ⟨hlo, h.lt_pages hv hP', hP'⟩
  · rw [hc.ent] at hP ⊢
    split at hP
    · cases hP
    · rename_i hn
      rw [if_neg hn]
      exact h.writable v hv hP

/-- `sbrk` keeps the pages below the end and writable. -/
theorem sbrk {r : Ledger ℕ} {s s' : Phys κ} {n : ℤ} {res : Result} (h : Trim sz d)
    (he : SbrkEffect r s d sz n res s' sz' d') : Trim sz' d' := by
  cases he with
  | same => exact ⟨h.tight, h.writable⟩
  | refused => exact h
  | @grown _ _ d₁ hn hnew hlt ho hg hf hk hlen =>
    have hle := pages_mono (show sz ≤ sz' by omega)
    refine ⟨fun v hge hv => ?_, fun v hv hP => ?_⟩
    · rw [Pgdir.ent_flush, hg.out v (Or.inr hge)]
      exact h.tight v (le_trans hle hge) hv
    · rw [Pgdir.ent_flush] at hP ⊢
      by_cases hin : pages sz ≤ v ∧ v < pages sz'
      · rw [hg.flags v hin.1 hin.2]
      · rw [hg.out v (by omega)] at hP ⊢
        exact h.writable v hv hP
  | @failed _ new _ hn hnew hlt ho hu hk hlen =>
    have habsent : ∀ v, pages sz ≤ v → v < UPAGES → (d'.ent v).P = false := fun v hge hv => by
      by_cases hin : v < pages new
      · exact (hu.absent v hge hin).1
      · rw [hu.out v (by omega)]
        exact h.tight v hge hv
    refine ⟨habsent, fun v hv hP => ?_⟩
    have hlt : v < pages sz := by
      by_contra hge
      rw [habsent v (Nat.le_of_not_lt hge) hv] at hP
      cases hP
    rw [hu.out v (Or.inl hlt)] at hP ⊢
    exact h.writable v hv hP
  | shrunk hn hnew hpos ho hc hk => exact ⟨(h.cleared hc).1, (h.cleared hc).2⟩
  | emptied hn hz ho hc hk =>
    obtain ⟨h₁, h₂⟩ := h.cleared hc
    exact ⟨fun v _ hv => h₁ v (Nat.zero_le v) hv, h₂⟩

/-- The image of a program. -/
theorem image {r : Ledger ℕ} (hi : Image r d (pages sz)) : Trim sz d := by
  refine ⟨fun v hge hv => ?_, fun v hv hP => ?_⟩
  · rw [hi.high v hge hv]
    rfl
  · rcases Nat.lt_or_ge v (pages sz) with hlow | hhigh
    · exact (hi.low v hlow).2.1
    · rw [hi.high v hhigh hv] at hP
      cases hP

/-- The copy for a child. -/
theorem child {m : ℕ → Page} {c₀ c : Pgdir} {s : Phys Base.Kmem} (h : Trim sz d)
    (hz : ∀ w < UPAGES, c₀.ent w = Pte.zero) (hc : Lazy.Child d m c₀ (pages sz) s c) :
    Trim sz c := by
  have hhigh : ∀ v, pages sz ≤ v → v < UPAGES → (c.ent v).P = false := fun v hge hv => by
    rw [hc.high v hge, hz v hv]
    rfl
  refine ⟨hhigh, fun v hv hP => ?_⟩
  have hlt : v < pages sz := by
    by_contra hge
    rw [hhigh v (Nat.le_of_not_lt hge) hv] at hP
    cases hP
  cases hL : (d.ent v).LAZY with
  | true =>
    rw [hc.marked v hlt hL] at hP
    cases hP
  | false =>
    have hfl := (hc.copy v hlt hL).2.1
    rw [hfl] at hP ⊢
    exact h.writable v hv hP

end Trim

end OsLabs.Xv6
