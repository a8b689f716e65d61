import OsLabs.Malloc.Fit

/-!
# The four-page allocator of the practice directory

`Practice/malloc-code/ealloc.c` differs from `ealloc.c` in its scan: after a free run it goes on
behind the run (`j = end`), so it looks at maximal runs only, and finds the shortest one.

* `IsBest`: the place kept by the scan, against the runs it has seen; `IsBest.add` is one round of
  the loop;
* `scanPage_best` and `scan_best`: the scan of a page, and of the pages;
* `alloc_spec`: what `alloc` returns, maps and marks;
* `practice_best_fit`: so in every reachable state it is a best-fit allocator.

The structures are those of `ealloc.c`; `bits`, `alloc_table`, `start` and `size` of the source
are the fields `bit_stat`, `table`, `start_addr` and `length` here.
-/

namespace OsLabs.Malloc.Practice

open Ealloc (Page MINALLOC MaxRun Region mark ptr pointer)

/-- `pages` -/
abbrev Pages := Fin 4 → Page

def init_alloc : Pages := fun _ => {}

/-- The best place found so far. -/
structure Best where
  page_allocated : Option (Fin 4) := none
  offset : ℕ := 0
  best_fit_size : ℤ := PAGESIZE + 1

theorem lt_runEnd_succ {bits : ℤ → Bool} {j : ℕ} (hj : j < PAGESIZE) (hb : ¬bits j = true) :
    j < runEnd bits j + 1 :=
  Nat.lt_succ_of_le (Ealloc.run_runEnd hj (Bool.not_eq_true _ ▸ hb)).2

/-- The scan of page `i` from place `j` on. -/
def scanPage (bits : ℤ → Bool) (i : Fin 4) (n : ℤ) (j : ℕ) (best : Best) : Best :=
  if hj : j < PAGESIZE then
    if hb : bits j then scanPage bits i n (j + 1) best
    else
      have := lt_runEnd_succ hj hb
      let curr_size : ℤ := runEnd bits j - j + 1
      if curr_size ≥ n ∧ curr_size < best.best_fit_size then
        scanPage bits i n (runEnd bits j + 1) ⟨some i, j, curr_size⟩
      else scanPage bits i n (runEnd bits j + 1) best
  else best
termination_by PAGESIZE - j

/-- The scan of the pages `is`. A page that is not mapped yet is mapped if nothing has been found
so far, and skipped otherwise. The pointer that `mmap` returns is used unchecked. -/
def scan (n : ℤ) (mmap : Fin 4 → ℕ) : List (Fin 4) → Best → Pages → Best × Pages
  | [], best, P => (best, P)
  | i :: is, best, P =>
    if (P i).page_start = 0 then
      if best.page_allocated = none then
        scan n mmap is (scanPage (P i).bit_stat i n 0 best)
          (Function.update P i { P i with page_start := mmap i })
      else scan n mmap is best P
    else scan n mmap is (scanPage (P i).bit_stat i n 0 best) P

/-- Allocate `n` bytes. -/
def alloc (n : ℤ) (mmap : Fin 4 → ℕ) (P : Pages) : Option ℕ × Pages :=
  if n < 0 ∨ n.tmod MINALLOC > 0 then (none, P)
  else
    match scan n mmap (List.finRange 4) {} P with
    | (best, P) =>
      match best.page_allocated with
      | none => (none, P)
      | some i =>
        (pointer (ptr (P i).page_start best.offset),
          Function.update P i (mark (P i) best.offset n))

/-- The first page and entry with the start address `addr`. -/
def find (addr : ℕ) (P : Pages) : Option (Fin 4 × Fin (PAGESIZE / MINALLOC)) :=
  (List.finRange 4).findSome? fun i => ((P i).entryAt addr).map (i, ·)

/-- Free the first block at `addr`; the offset is truncated to an `int`. -/
def dealloc (addr : ℕ) (P : Pages) : Pages :=
  match find addr P with
  | some (i, k) =>
    let offset := ((addr : ℤ) - (P i).page_start).bmod (2 ^ 32)
    Function.update P i
      (((P i).fill offset (offset + ((P i).table k).length) false).setEntry k {})
  | none => P

/-! ## The shortest run seen so far -/

section Best

variable {bits : Fin 4 → ℤ → Bool} {n : ℤ} {best : Best}

/-- The run `(i, off, len)` is a shortest one of `V`, and the first of these. -/
def Shortest (V : Fin 4 → ℕ → ℤ → Prop) (i : Fin 4) (off : ℕ) (len : ℤ) : Prop :=
  V i off len ∧ ∀ i' off' len', V i' off' len' →
    len < len' ∨ len = len' ∧ (i < i' ∨ i = i' ∧ off ≤ off')

/-- The place kept is the shortest run of `V`, if there is one. -/
def IsBest (V : Fin 4 → ℕ → ℤ → Prop) (best : Best) : Prop :=
  match best.page_allocated with
  | none => best = {} ∧ ∀ i off len, ¬V i off len
  | some i => Shortest V i best.offset best.best_fit_size

/-- The maximal runs with room seen when page `i` has been scanned up to place `S i`. -/
def Seen (bits : Fin 4 → ℤ → Bool) (n : ℤ) (S : Fin 4 → ℕ) (i : Fin 4) (off : ℕ) (len : ℤ) : Prop :=
  off < S i ∧ MaxRun (bits i) off len ∧ n ≤ len

/-- One more run is seen, after all others in the order of the scan. -/
theorem IsBest.add {V V' : Fin 4 → ℕ → ℤ → Prop} {i : Fin 4} {j : ℕ} {len : ℤ}
    (h : IsBest V best) (hlen : len ≤ PAGESIZE)
    (hV' : ∀ i' off' len', V' i' off' len' ↔
      V i' off' len' ∨ i' = i ∧ off' = j ∧ len' = len ∧ n ≤ len)
    (hlate : ∀ i' off' len', V i' off' len' → i' < i ∨ i' = i ∧ off' < j) :
    IsBest V' (if len ≥ n ∧ len < best.best_fit_size then ⟨some i, j, len⟩ else best) := by
  have hnone : best.page_allocated = none → len < best.best_fit_size := fun hb => by
    rw [IsBest, hb] at h
    rw [h.1]
    exact Int.lt_add_one_of_le hlen
  split
  · rename_i hc
    refine ⟨(hV' i j len).mpr (Or.inr ⟨rfl, rfl, rfl, hc.1⟩), fun i' off' len' hv => ?_⟩
    rcases (hV' i' off' len').mp hv with hv | ⟨rfl, rfl, rfl, -⟩
    · unfold IsBest at h
      cases hb : best.page_allocated with
      | none =>
        rw [hb] at h
        exact absurd hv (h.2 i' off' len')
      | some i₀ =>
        rw [hb] at h
        have hlt := hc.2
        rcases h.2 i' off' len' hv with hle | ⟨he, -⟩
        · exact Or.inl (hlt.trans hle)
        · exact Or.inl (he ▸ hlt)
    · exact Or.inr ⟨rfl, Or.inr ⟨rfl, le_refl _⟩⟩
  · rename_i hc
    unfold IsBest at h ⊢
    cases hb : best.page_allocated with
    | none =>
      rw [hb] at h
      refine ⟨h.1, fun i' off' len' hv => ?_⟩
      rcases (hV' i' off' len').mp hv with hv | ⟨-, -, -, hn⟩
      · exact h.2 i' off' len' hv
      · exact hc ⟨hn, hnone hb⟩
    | some i₀ =>
      rw [hb] at h
      refine ⟨(hV' _ _ _).mpr (Or.inl h.1), fun i' off' len' hv => ?_⟩
      rcases (hV' i' off' len').mp hv with hv | ⟨rfl, rfl, rfl, hn⟩
      · exact h.2 i' off' len' hv
      · have hge : best.best_fit_size ≤ len' := by omega
        rcases lt_or_eq_of_le hge with hlt | he
        · exact Or.inl hlt
        · refine Or.inr ⟨he, ?_⟩
          rcases hlate _ _ _ h.1 with hi | ⟨hi, ho⟩
          · exact Or.inl hi
          · exact Or.inr ⟨hi, le_of_lt ho⟩

/-! ## The scans -/

variable {i : Fin 4} {S : Fin 4 → ℕ} {j : ℕ}

theorem Seen.of_page {i' : Fin 4} {off : ℕ} {len : ℤ}
    (h : Seen bits n (Function.update S i j) i' off len)
    (hlate : ∀ i' > i, S i' = 0) : i' < i ∨ i' = i ∧ off < j := by
  rcases lt_trichotomy i' i with hlt | rfl | hgt
  · exact Or.inl hlt
  · have := h.1
    rw [Function.update_self] at this
    exact Or.inr ⟨rfl, this⟩
  · have := h.1
    rw [Function.update_of_ne (ne_of_gt hgt), hlate i' hgt] at this
    exact absurd this (Nat.not_lt_zero off)

/-- No maximal run starts at a set place. -/
theorem seen_set (hb : bits i j = true) :
    Seen bits n (Function.update S i (j + 1)) = Seen bits n (Function.update S i j) := by
  funext i' off len
  refine propext (and_congr_left fun h => ?_)
  by_cases hi : i' = i
  · subst hi
    rw [Function.update_self, Function.update_self]
    refine ⟨fun hlt => ?_, fun hlt => Nat.lt_succ_of_lt hlt⟩
    refine lt_of_le_of_ne (Nat.le_of_lt_succ hlt) fun he => ?_
    have hpos := h.1.pos
    have hclear := h.1.clear off (le_refl _) (by omega)
    rw [he, hb] at hclear
    exact Bool.false_ne_true hclear.symm
  · rw [Function.update_of_ne hi, Function.update_of_ne hi]

/-- The only maximal run that starts at the places of a maximal run is this one. -/
theorem seen_run {e : ℕ} (hrun : MaxRun (bits i) j (e - j + 1)) (i' : Fin 4) (off : ℕ) (len : ℤ) :
    Seen bits n (Function.update S i (e + 1)) i' off len ↔
      Seen bits n (Function.update S i j) i' off len ∨
        i' = i ∧ off = j ∧ len = e - j + 1 ∧ n ≤ (e - j + 1 : ℤ) := by
  have hpos := hrun.pos
  by_cases hi : i' = i
  · subst hi
    simp only [Seen, Function.update_self, true_and]
    refine ⟨fun ⟨hlt, h, hn⟩ => ?_, fun h => ?_⟩
    · by_cases hj : off < j
      · exact Or.inl ⟨hj, h, hn⟩
      · have hpos' := h.pos
        obtain ⟨rfl, rfl⟩ := hrun.unique h (by omega) (by omega)
        exact Or.inr ⟨rfl, rfl, hn⟩
    · rcases h with ⟨hlt, h, hn⟩ | ⟨rfl, rfl, hn⟩
      · exact ⟨by omega, h, hn⟩
      · exact ⟨by omega, hrun, hn⟩
  · simp only [Seen, Function.update_of_ne hi, hi, false_and, or_false]

/-- One round of the scan, at a free place `j` that is not inside a free run. -/
theorem IsBest.round (hlate : ∀ i' > i, S i' = 0) (hj : j < PAGESIZE) (hb : ¬bits i j = true)
    (hstart : j = 0 ∨ bits i (j - 1) = true ∨ bits i j = true ∨ j = PAGESIZE)
    (h : IsBest (Seen bits n (Function.update S i j)) best) :
    (runEnd (bits i) j + 1 ≤ PAGESIZE ∧ (bits i (runEnd (bits i) j + 1 : ℕ) = true ∨
      runEnd (bits i) j + 1 = PAGESIZE)) ∧
    IsBest (Seen bits n (Function.update S i (runEnd (bits i) j + 1)))
      (if (runEnd (bits i) j - j + 1 : ℤ) ≥ n ∧
          (runEnd (bits i) j - j + 1 : ℤ) < best.best_fit_size then
        ⟨some i, j, runEnd (bits i) j - j + 1⟩ else best) := by
  obtain ⟨hrun, hle⟩ := Ealloc.run_runEnd hj (Bool.not_eq_true _ ▸ hb)
  have hmax : MaxRun (bits i) j (runEnd (bits i) j - j + 1) := by
    refine ⟨hrun, by omega, hstart.imp_right fun hs => ?_⟩
    rcases hs with hs | hs | hs
    · exact hs
    · exact absurd hs hb
    · omega
  have hpage := hrun.le
  refine ⟨⟨by omega, ?_⟩, h.add (by omega) (seen_run hmax) fun _ _ _ hv => hv.of_page hlate⟩
  have hcast : (j : ℤ) + (runEnd (bits i) j - j + 1) = (runEnd (bits i) j + 1 : ℕ) := by omega
  have hstop := hrun.stop
  rw [hcast] at hstop
  exact hstop.symm.imp_right fun he => by omega

/-- The scan of page `i`, from a place that is not inside a free run. -/
theorem scanPage_best (hlate : ∀ i' > i, S i' = 0) (hj : j ≤ PAGESIZE)
    (hstart : j = 0 ∨ bits i (j - 1) = true ∨ bits i j = true ∨ j = PAGESIZE)
    (h : IsBest (Seen bits n (Function.update S i j)) best) :
    IsBest (Seen bits n (Function.update S i PAGESIZE)) (scanPage (bits i) i n j best) := by
  fun_induction scanPage (bits i) i n j best with
  | case1 j best hj' hb ih =>
    refine ih (by omega) (Or.inr (Or.inl ?_)) (seen_set hb ▸ h)
    rwa [Nat.cast_add_one, Int.add_sub_cancel]
  | case2 j best hj' hb _ len hc ih =>
    obtain ⟨⟨hle, hstop⟩, hnext⟩ := h.round hlate hj' hb hstart
    rw [if_pos hc] at hnext
    exact ih hle (Or.inr (Or.inr hstop)) hnext
  | case3 j best hj' hb _ len hc ih =>
    obtain ⟨⟨hle, hstop⟩, hnext⟩ := h.round hlate hj' hb hstart
    rw [if_neg hc] at hnext
    exact ih hle (Or.inr (Or.inr hstop)) hnext
  | case4 j best hj' =>
    obtain rfl : j = PAGESIZE := by omega
    exact h

end Best

section Pages

variable {n : ℤ} {mmap : Fin 4 → ℕ} {best best' : Best} {P P' : Pages}

/-- How far the pages have been seen after the scan of the pages `is`, which has left `P'`. -/
def upTo (is : List (Fin 4)) (P' : Pages) (S : Fin 4 → ℕ) (i : Fin 4) : ℕ :=
  if i ∈ is ∧ (P' i).page_start ≠ 0 then PAGESIZE else S i

/-- What the scan of the pages `is` does: it maps pages, and keeps the shortest run of the pages
that are mapped afterwards. A page is mapped unless one before it has room. -/
structure Scanned (n : ℤ) (mmap : Fin 4 → ℕ) (is : List (Fin 4)) (S : Fin 4 → ℕ) (P : Pages)
    (best' : Best) (P' : Pages) : Prop where
  page : ∀ i, P' i = { P i with page_start := (P' i).page_start }
  kept : ∀ i, i ∉ is ∨ (P i).page_start ≠ 0 → P' i = P i
  mapped : ∀ i ∈ is, (P i).page_start = 0 →
    (∀ k < i, ∀ off len, ¬Seen (fun i => (P i).bit_stat) n (upTo is P' S) k off len) →
    (P' i).page_start = mmap i
  skipped : ∀ i ∈ is, (P i).page_start = 0 → ∀ k < i, ∀ off len,
    Seen (fun i => (P i).bit_stat) n (upTo is P' S) k off len → (P' i).page_start = 0
  best : IsBest (Seen (fun i => (P i).bit_stat) n (upTo is P' S)) best'
  all : best'.page_allocated = none → ∀ i ∈ is, (P' i).page_start ≠ 0

/-- A page that is scanned before the pages `is`: it was mapped, or is mapped now, since nothing
has been found. -/
theorem Scanned.cons {i : Fin 4} {is : List (Fin 4)} {S : Fin 4 → ℕ} {p : ℕ}
    (hlt : ∀ j ∈ is, i < j) (hp : p ≠ 0)
    (hmap : (P i).page_start = p ∨ (P i).page_start = 0 ∧ p = mmap i ∧
      ∀ k off len, ¬Seen (fun i => (P i).bit_stat) n S k off len)
    (h : Scanned n mmap is (Function.update S i PAGESIZE)
      (Function.update P i { P i with page_start := p }) best' P') :
    Scanned n mmap (i :: is) S P best' P' := by
  have hi : i ∉ is := fun hm => lt_irrefl i (hlt i hm)
  obtain ⟨P₁, hP₁⟩ : ∃ P₁, P₁ = Function.update P i { P i with page_start := p } := ⟨_, rfl⟩
  have hself : P₁ i = { P i with page_start := p } := by rw [hP₁, Function.update_self]
  have hne : ∀ j, j ≠ i → P₁ j = P j := fun j hj => by rw [hP₁, Function.update_of_ne hj]
  have hbits : (fun i => (P₁ i).bit_stat) = fun i => (P i).bit_stat := by
    funext j
    by_cases hj : j = i
    · rw [hj, hself]
    · rw [hne j hj]
  rw [← hP₁] at h
  have hPi : P' i = P₁ i := h.kept i (Or.inl hi)
  have hS : upTo is P' (Function.update S i PAGESIZE) = upTo (i :: is) P' S := by
    funext j
    unfold upTo
    by_cases hj : j = i
    · subst hj
      rw [if_neg fun hm => hi hm.1, if_pos ⟨List.mem_cons_self, by rw [hPi, hself]; exact hp⟩,
        Function.update_self]
    · rw [Function.update_of_ne hj]
      simp only [List.mem_cons, hj, false_or]
  have hmapped := h.mapped
  have hskipped := h.skipped
  have hbest := h.best
  rw [hbits, hS] at hmapped hskipped hbest
  refine ⟨fun j => ?_, fun j hj => ?_, fun j hj h0 hno => ?_, fun j hj h0 k hk off len hv => ?_,
    hbest, fun hb j hj => ?_⟩
  · rw [h.page j]
    by_cases hji : j = i
    · rw [hji, hself]
    · rw [hne j hji]
  · by_cases hji : j = i
    · subst hji
      have h0 := hj.resolve_left fun hm => hm List.mem_cons_self
      rw [hPi, hself, ← hmap.resolve_right fun hm => h0 hm.1]
    · rw [h.kept j (hj.imp (fun hm hj => hm (List.mem_cons_of_mem i hj))
        fun h0 => by rwa [hne j hji]), hne j hji]
  · rcases List.mem_cons.mp hj with rfl | hj
    · rcases hmap with hm | ⟨-, hm, -⟩
      · exact absurd (hm ▸ h0) hp
      · rw [hPi, hself]
        exact hm
    · exact hmapped j hj (by rwa [hne j (ne_of_gt (hlt j hj))]) hno
  · rcases List.mem_cons.mp hj with rfl | hj
    · rcases hmap with hm | ⟨-, -, hno⟩
      · exact absurd (hm ▸ h0) hp
      · -- the pages before are not among those scanned now
        have hk' : k ∉ j :: is := fun hm => by
          rcases List.mem_cons.mp hm with rfl | hm
          · exact lt_irrefl k hk
          · exact lt_asymm hk (hlt k hm)
        refine absurd ⟨?_, hv.2⟩ (hno k off len)
        exact lt_of_lt_of_eq hv.1 (if_neg fun hc => hk' hc.1)
    · exact hskipped j hj (by rwa [hne j (ne_of_gt (hlt j hj))]) k hk off len hv
  · rcases List.mem_cons.mp hj with rfl | hj
    · rw [hPi, hself]
      exact hp
    · exact h.all hb j hj

/-- A page that is not mapped, when something has been found already. -/
theorem Scanned.skip {i : Fin 4} {is : List (Fin 4)} {S : Fin 4 → ℕ} (hlt : ∀ j ∈ is, i < j)
    (h0 : (P i).page_start = 0) (hlate : ∀ i₁ ∈ i :: is, ∀ i' ≥ i₁, S i' = 0)
    (hbest : IsBest (Seen (fun i => (P i).bit_stat) n S) best) (hfound : best.page_allocated ≠ none)
    (h : Scanned n mmap is S P best' P') : Scanned n mmap (i :: is) S P best' P' := by
  have hi : i ∉ is := fun hm => lt_irrefl i (hlt i hm)
  have hPi : P' i = P i := h.kept i (Or.inl hi)
  have hS : upTo is P' S = upTo (i :: is) P' S := by
    funext j
    unfold upTo
    by_cases hj : j = i
    · subst hj
      rw [if_neg fun hm => hi hm.1, if_neg fun hm => hm.2 (hPi ▸ h0)]
    · simp only [List.mem_cons, hj, false_or]
  -- what has been found is in a page before `i`, and still among the runs seen
  obtain ⟨i₀, hi₀⟩ := Option.ne_none_iff_exists'.mp hfound
  rw [IsBest, hi₀] at hbest
  have hlt₀ : i₀ < i := lt_of_not_ge fun hge => by
    have hseen := hbest.1.1
    rw [hlate i List.mem_cons_self i₀ hge] at hseen
    exact Nat.not_lt_zero _ hseen
  have hseen : Seen (fun i => (P i).bit_stat) n (upTo (i :: is) P' S) i₀ best.offset
      best.best_fit_size := by
    refine ⟨lt_of_lt_of_eq hbest.1.1 (if_neg fun hc => ?_).symm, hbest.1.2⟩
    rcases List.mem_cons.mp hc.1 with rfl | hm
    · exact lt_irrefl i₀ hlt₀
    · exact lt_asymm hlt₀ (hlt i₀ hm)
  have hmapped := h.mapped
  have hskipped := h.skipped
  have hbest' := h.best
  rw [hS] at hmapped hskipped hbest'
  refine ⟨h.page, fun j hj => ?_, fun j hj hj0 hno => ?_, fun j hj hj0 k hk off len hv => ?_,
    hbest', fun hb => ?_⟩
  · exact h.kept j (hj.imp_left fun hm hj => hm (List.mem_cons_of_mem i hj))
  · rcases List.mem_cons.mp hj with rfl | hj
    · exact absurd hseen (hno i₀ hlt₀ _ _)
    · exact hmapped j hj hj0 hno
  · rcases List.mem_cons.mp hj with rfl | hj
    · rw [hPi, hj0]
    · exact hskipped j hj hj0 k hk off len hv
  · rw [IsBest, hb] at hbest'
    exact absurd hseen (hbest'.2 i₀ best.offset best.best_fit_size)

theorem scan_best {is : List (Fin 4)} {S : Fin 4 → ℕ} (hsorted : is.Pairwise (· < ·))
    (hlate : ∀ i ∈ is, ∀ i' ≥ i, S i' = 0) (hmmap : ∀ i, (P i).page_start = 0 → mmap i ≠ 0)
    (h : IsBest (Seen (fun i => (P i).bit_stat) n S) best)
    (hscan : scan n mmap is best P = (best', P')) : Scanned n mmap is S P best' P' := by
  induction is generalizing best P S with
  | nil =>
    obtain ⟨rfl, rfl⟩ := Prod.mk.inj hscan
    have hS : upTo [] P S = S := funext fun i => if_neg fun hc => List.not_mem_nil hc.1
    exact ⟨fun _ => rfl, fun _ _ => rfl, fun i hi => absurd hi List.not_mem_nil,
      fun i hi => absurd hi List.not_mem_nil, hS.symm ▸ h, fun _ i hi => absurd hi List.not_mem_nil⟩
  | cons i is ih =>
    obtain ⟨hlt, hsorted⟩ := List.pairwise_cons.mp hsorted
    have hlate' : ∀ i₁ ∈ is, ∀ i' ≥ i₁, S i' = 0 := fun i₁ h₁ =>
      hlate i₁ (List.mem_cons_of_mem i h₁)
    have hupd : ∀ i₁ ∈ is, ∀ i' ≥ i₁, Function.update S i PAGESIZE i' = 0 := by
      intro i₁ h₁ i' hi'
      rw [Function.update_of_ne (ne_of_gt ((hlt i₁ h₁).trans_le hi'))]
      exact hlate' i₁ h₁ i' hi'
    have hpage : IsBest (Seen (fun i => (P i).bit_stat) n (Function.update S i PAGESIZE))
        (scanPage (P i).bit_stat i n 0 best) := by
      refine @scanPage_best (fun i => (P i).bit_stat) n best i S 0
        (fun i' hi' => hlate i List.mem_cons_self i' (le_of_lt hi')) (Nat.zero_le _)
        (Or.inl rfl) ?_
      rwa [← hlate i List.mem_cons_self i (le_refl i), Function.update_eq_self]
    unfold scan at hscan
    split at hscan
    · rename_i h0
      split at hscan
      · rename_i hnone
        have hmap := hmmap i h0
        have hno : ∀ k off len, ¬Seen (fun i => (P i).bit_stat) n S k off len := by
          rw [IsBest, hnone] at h
          exact h.2
        refine Scanned.cons hlt hmap (Or.inr ⟨h0, rfl, hno⟩)
          (ih hsorted hupd (fun j hj => ?_) ?_ hscan)
        · by_cases hji : j = i
          · exact hji ▸ hmap
          · rw [Function.update_of_ne hji] at hj
            exact hmmap j hj
        · have hbits : (fun j => (Function.update P i
              { P i with page_start := mmap i } j).bit_stat) = fun j => (P j).bit_stat := by
            funext j
            by_cases hji : j = i
            · subst hji
              rw [Function.update_self]
            · rw [Function.update_of_ne hji]
          rwa [hbits]
      · rename_i hfound
        exact Scanned.skip hlt h0 hlate h hfound (ih hsorted hlate' hmmap h hscan)
    · rename_i h0
      refine Scanned.cons hlt h0 (Or.inl rfl) ?_
      have hscanned := ih hsorted hupd hmmap hpage hscan
      rwa [← Function.update_eq_self i P] at hscanned

end Pages

/-! ## `alloc` -/

theorem mark_bit_stat (P : Page) (off : ℕ) (n b : ℤ) :
    (mark P off n).bit_stat b = if off ≤ b ∧ b < off + n then true else P.bit_stat b := by
  unfold mark
  simp only
  split <;> rfl

theorem mark_start (P₁ : Pages) (i : Fin 4) (off : ℕ) (n : ℤ) (j : Fin 4) :
    (Function.update P₁ i (mark (P₁ i) off n) j).page_start = (P₁ j).page_start := by
  by_cases hj : j = i
  · subst hj
    rw [Function.update_self, Ealloc.mark_page_start]
  · rw [Function.update_of_ne hj]

/-- A maximal free run of `P` with room for `n` bytes, in a page that is mapped in `P'`. -/
def Room (P P' : Pages) (n : ℤ) (i : Fin 4) (off : ℕ) (len : ℤ) : Prop :=
  (P' i).page_start ≠ 0 ∧ MaxRun (P i).bit_stat off len ∧ n ≤ len

/-- The pages that are mapped stay where they are. One that is not is mapped at the answer of
`mmap` where no page before it has room for `n` bytes, and stays unmapped otherwise. -/
structure Expanded (n : ℤ) (mmap : Fin 4 → ℕ) (P P' : Pages) : Prop where
  kept : ∀ i, (P i).page_start ≠ 0 → (P' i).page_start = (P i).page_start
  mapped : ∀ i, (P i).page_start = 0 → (∀ k < i, ∀ off len, ¬Room P P' n k off len) →
    (P' i).page_start = mmap i
  skipped : ∀ i, (P i).page_start = 0 → ∀ k < i, ∀ off len, Room P P' n k off len →
    (P' i).page_start = 0

section Alloc

variable {P P' : Pages} {n : ℤ} {mmap : Fin 4 → ℕ} {r : Option ℕ}

theorem Room.congr {P₁ : Pages} (h : ∀ i, (P' i).page_start = (P₁ i).page_start) :
    Room P P' n = Room P P₁ n := by
  funext i off len
  rw [Room, h, Room]

theorem Expanded.congr {P₁ : Pages} (h : ∀ i, (P' i).page_start = (P₁ i).page_start)
    (he : Expanded n mmap P P₁) : Expanded n mmap P P' := by
  refine ⟨fun i hi => ?_, fun i h0 hno => ?_, fun i h0 k hk off len hr => ?_⟩
  · rw [h, he.kept i hi]
  · rw [h, he.mapped i h0 (Room.congr h ▸ hno)]
  · rw [h, he.skipped i h0 k hk off len (Room.congr h ▸ hr)]

/-- `alloc` maps pages, and then fails where no mapped page has room, or marks `n` bytes from the
start of the shortest free run with room on. -/
theorem alloc_spec (hn : 0 < n) (hmul : n % MINALLOC = 0)
    (hmmap : ∀ i, (P i).page_start = 0 → mmap i ≠ 0) (ha : alloc n mmap P = (r, P')) :
    ∃ P₁, Expanded n mmap P P₁ ∧ (∀ i, P₁ i = { P i with page_start := (P₁ i).page_start }) ∧
      ((r = none ∧ P' = P₁ ∧ (∀ i, (P₁ i).page_start ≠ 0) ∧ ∀ i off len, ¬Room P P₁ n i off len) ∨
        ∃ i off len, Shortest (Room P P₁ n) i off len ∧
          r = pointer (ptr (P₁ i).page_start off) ∧
          P' = Function.update P₁ i (mark (P₁ i) off n)) := by
  obtain ⟨best, P₁, hscan⟩ : ∃ best P₁, scan n mmap (List.finRange 4) {} P = (best, P₁) :=
    ⟨_, _, rfl⟩
  have h₀ : IsBest (Seen (fun i => (P i).bit_stat) n fun _ => 0) {} :=
    ⟨rfl, fun i off len hv => Nat.not_lt_zero off hv.1⟩
  have hs := scan_best (List.pairwise_lt_finRange 4) (fun _ _ _ _ => rfl) hmmap h₀ hscan
  have hroom : Seen (fun i => (P i).bit_stat) n (upTo (List.finRange 4) P₁ fun _ => 0) =
      Room P P₁ n := by
    funext i off len
    refine propext (and_congr_left fun hv => ?_)
    unfold upTo
    by_cases h0 : (P₁ i).page_start ≠ 0
    · simp only [List.mem_finRange, h0, not_false_eq_true, ne_eq, and_self, if_true]
      have hle := hv.1.le
      have hpos := hv.1.pos
      exact iff_of_true (by omega) trivial
    · simp only [h0, and_false, if_false, Nat.not_lt_zero]
  have hmapped := hs.mapped
  have hskipped := hs.skipped
  have hbest := hs.best
  rw [hroom] at hmapped hskipped hbest
  refine ⟨P₁, ⟨fun i hi => by rw [hs.kept i (Or.inr hi)], fun i => hmapped i (List.mem_finRange i),
    fun i => hskipped i (List.mem_finRange i)⟩, hs.page, ?_⟩
  have htmod := tmod_of_emod hn hmul
  rw [alloc, if_neg (by omega), hscan] at ha
  cases hb : best.page_allocated with
  | none =>
    simp only [hb] at ha
    obtain ⟨rfl, rfl⟩ := Prod.mk.inj ha
    rw [IsBest, hb] at hbest
    exact Or.inl ⟨rfl, rfl, fun i => hs.all hb i (List.mem_finRange i), hbest.2⟩
  | some i =>
    simp only [hb] at ha
    obtain ⟨rfl, rfl⟩ := Prod.mk.inj ha
    rw [IsBest, hb] at hbest
    exact Or.inr ⟨i, best.offset, best.best_fit_size, hbest, rfl, rfl⟩

/-- Every page is unmapped or at the address of a region. -/
def Placed (P : Pages) : Prop := ∀ i, (P i).page_start = 0 ∨ Region (P i).page_start

theorem Expanded.placed (h : Expanded n mmap P P') (hP : Placed P)
    (hmmap : ∀ i, (P i).page_start = 0 → Region (mmap i)) : Placed P' := by
  intro i
  rcases hP i with h0 | hreg
  · by_cases hroom : ∃ k < i, ∃ off len, Room P P' n k off len
    · obtain ⟨k, hk, off, len, hr⟩ := hroom
      exact Or.inl (h.skipped i h0 k hk off len hr)
    · refine Or.inr ?_
      rw [h.mapped i h0 fun k hk off len hr => hroom ⟨k, hk, off, len, hr⟩]
      exact hmmap i h0
  · refine Or.inr ?_
    rwa [h.kept i hreg.ne_zero]

theorem dealloc_start (addr : ℕ) (P : Pages) (i : Fin 4) :
    (dealloc addr P i).page_start = (P i).page_start := by
  unfold dealloc
  cases find addr P with
  | none => rfl
  | some jk =>
    by_cases hi : i = jk.1
    · simp only [hi, Function.update_self]
      rfl
    · simp only [Function.update_of_ne hi]

/-- The pages after `init_alloc` and a sequence of calls: `alloc` of positive multiples of
`MINALLOC`, with every `mmap` successful, and `dealloc` of any address. -/
inductive Reachable : Pages → Prop
  | init : Reachable init_alloc
  | alloc {P : Pages} {n : ℤ} {mmap : Fin 4 → ℕ} (h : Reachable P) (hn : 0 < n)
      (hmul : n % MINALLOC = 0) (hmmap : ∀ i, (P i).page_start = 0 → Region (mmap i)) :
      Reachable (alloc n mmap P).2
  | dealloc {P : Pages} (h : Reachable P) (addr : ℕ) : Reachable (dealloc addr P)

theorem placed_of_reachable (h : Reachable P) : Placed P := by
  induction h with
  | init => exact fun _ => Or.inl rfl
  | @alloc P n mmap h hn hmul hmmap ih =>
    obtain ⟨r, P', ha⟩ : ∃ r P', Practice.alloc n mmap P = (r, P') := ⟨_, _, rfl⟩
    rw [ha]
    obtain ⟨P₁, hex, -, hcase⟩ := alloc_spec hn hmul (fun i h0 => (hmmap i h0).ne_zero) ha
    have h₁ := hex.placed ih hmmap
    rcases hcase with ⟨-, rfl, -⟩ | ⟨i, off, len, -, -, rfl⟩
    · exact h₁
    · intro j
      rw [mark_start]
      exact h₁ j
  | dealloc _ addr ih =>
    intro i
    rw [dealloc_start]
    exact ih i

/-- The result of `alloc(n)` fits best. `NULL` says that all pages are mapped and none has room;
otherwise the block is at the start of the shortest free run with room, the first one in the order
of the pages and the offsets if there are several, and its `n` bytes are marked. -/
def BestFit (n : ℤ) (P P' : Pages) : Option ℕ → Prop
  | none => (∀ i, (P' i).page_start ≠ 0) ∧ (∀ i off len, ¬Room P P' n i off len) ∧
      ∀ j, (P' j).bit_stat = (P j).bit_stat
  | some addr => ∃ i off len, Shortest (Room P P' n) i off len ∧
      addr = (P' i).page_start + off ∧
      ∀ j b, (P' j).bit_stat b =
        if j = i ∧ off ≤ b ∧ b < off + n then true else (P j).bit_stat b

/-- In every reachable state the result of `alloc(n)` fits best. Mapped pages keep their address,
and a page is mapped at the answer of `mmap` exactly where no page before it has room. -/
theorem practice_best_fit (h : Reachable P) (hn : 0 < n) (hmul : n % MINALLOC = 0)
    (hmmap : ∀ i, (P i).page_start = 0 → Region (mmap i)) (ha : alloc n mmap P = (r, P')) :
    Expanded n mmap P P' ∧ BestFit n P P' r := by
  obtain ⟨P₁, hex, hpage, hcase⟩ := alloc_spec hn hmul (fun i h0 => (hmmap i h0).ne_zero) ha
  rcases hcase with ⟨rfl, rfl, hall, hno⟩ | ⟨i, off, len, hs, rfl, rfl⟩
  · refine ⟨hex, hall, hno, fun j => ?_⟩
    rw [hpage j]
  · have hstart := mark_start P₁ i off n
    have hle := hs.1.2.1.le
    have hpos := hs.1.2.1.pos
    have hreg := (hex.placed (placed_of_reachable h) hmmap i).resolve_left hs.1.1
    have hne := hreg.ne_zero
    have haddr : pointer (ptr (P₁ i).page_start off) = some ((P₁ i).page_start + off) := by
      rw [Ealloc.ptr_eq hreg.le (by omega), Ealloc.pointer_of_ne (by omega)]
    rw [haddr]
    refine ⟨hex.congr hstart, i, off, len, Room.congr hstart ▸ hs, by rw [hstart], fun j b => ?_⟩
    by_cases hj : j = i
    · subst hj
      rw [Function.update_self, mark_bit_stat, hpage j]
      simp only [true_and]
    · rw [Function.update_of_ne hj, if_neg fun hc => hj hc.1, hpage j]

end Alloc

/-! ## A fragmented state -/

/-- An operating system that maps page `i` at the address `(i + 1) * PAGESIZE`. -/
def sampleMmap (i : Fin 4) : ℕ := (i + 1) * PAGESIZE

theorem sampleMmap_region (i : Fin 4) : Region (sampleMmap i) :=
  Ealloc.sampleMmap_region rfl

/-- Page 0 is `Q`, and no other page is mapped. -/
def only (Q : Page) : Pages := Function.update init_alloc 0 Q

theorem only_zero (Q : Page) : only Q 0 = Q := Function.update_self ..

theorem only_ne (Q : Page) {i : Fin 4} (hi : i ≠ 0) : only Q i = {} := Function.update_of_ne hi ..

/-- `alloc` where page 0 is at its address and has room, and no other page is mapped. -/
theorem alloc_only {Q : Page} {n : ℤ} {off : ℕ} {len : ℤ} (hn : 0 < n) (hmul : n % MINALLOC = 0)
    (h0 : Q.page_start = 0 ∨ Q.page_start = PAGESIZE) (hrun : MaxRun Q.bit_stat off len)
    (hfits : n ≤ len) (hbest : ∀ off' len', MaxRun Q.bit_stat off' len' → n ≤ len' →
      len < len' ∨ len = len' ∧ off ≤ off') :
    alloc n sampleMmap (only Q) =
      (some (PAGESIZE + off), only (mark { Q with page_start := PAGESIZE } off n)) := by
  obtain ⟨r, P', ha⟩ : ∃ r P', alloc n sampleMmap (only Q) = (r, P') := ⟨_, _, rfl⟩
  obtain ⟨P₁, hex, hpage, hcase⟩ :=
    alloc_spec hn hmul (fun i _ => (sampleMmap_region i).ne_zero) ha
  have hstart : (P₁ 0).page_start = PAGESIZE := by
    rcases h0 with h0 | h0
    · have hmapped := hex.mapped 0 (by rw [only_zero, h0]) fun k hk => absurd hk (Fin.not_lt_zero k)
      exact hmapped.trans (Nat.one_mul _)
    · have hkept := hex.kept 0 (by rw [only_zero, h0]; decide)
      rw [hkept, only_zero, h0]
  have hroom : Room (only Q) P₁ n 0 off len :=
    ⟨by rw [hstart]; decide, by rwa [only_zero], hfits⟩
  have hrest : ∀ i ≠ 0, P₁ i = {} := fun i hi => by
    rw [hpage i, hex.skipped i (by rw [only_ne Q hi]) 0 (Fin.pos_iff_ne_zero.mpr hi) off len hroom,
      only_ne Q hi]
  rcases hcase with ⟨-, -, -, hno⟩ | ⟨i, off', len', hs, rfl, rfl⟩
  · exact absurd hroom (hno 0 off len)
  · obtain rfl : i = 0 := by
      by_contra hi
      exact hs.1.1 (by rw [hrest i hi])
    obtain rfl : off' = off := by
      have h₁ := hs.2 0 off len hroom
      have h₂ := hbest off' len' (only_zero Q ▸ hs.1.2.1) hs.1.2.2
      simp only [lt_irrefl, true_and, false_or] at h₁
      omega
    have hle := hrun.le
    have hpos := hrun.pos
    have hne : PAGESIZE + off' ≠ 0 := by
      simp only [PAGESIZE]
      omega
    rw [ha, hstart, Ealloc.ptr_eq (by decide) (by omega), Ealloc.pointer_of_ne hne]
    refine congrArg (Prod.mk _) (funext fun j => ?_)
    by_cases hj : j = 0
    · rw [hj, Function.update_self, only_zero, hpage 0, hstart, only_zero]
    · rw [Function.update_of_ne hj, only_ne _ hj, hrest j hj]

/-- Page 0 after `alloc(3584)`. -/
def oneBlock : Page :=
  (({ page_start := PAGESIZE } : Page).fill 0 3584 true).setEntry ⟨0, by decide⟩
    ⟨PAGESIZE, 3584, true⟩

/-- Page 0 after `alloc(3584)` and `alloc(256)`. -/
def twoBlocks : Page :=
  (oneBlock.fill 3584 3840 true).setEntry ⟨1, by decide⟩ ⟨PAGESIZE + 3584, 256, true⟩

theorem reachable_oneBlock : Reachable (only oneBlock) := by
  have hreach := Reachable.init.alloc (n := 3584) (by decide) (by decide)
    fun i _ => sampleMmap_region i
  have ha := @alloc_only {} 3584 0 PAGESIZE (by decide) (by decide) (Or.inl rfl)
    ⟨⟨by decide, fun _ _ _ => rfl, Or.inl (by decide)⟩, by decide, Or.inl rfl⟩ (by decide) ?_
  · have hinit : only {} = init_alloc := Function.update_eq_self 0 init_alloc
    rw [← hinit, ha] at hreach
    exact hreach
  · intro off len h _
    have hoff := h.start.resolve_right Bool.false_ne_true
    have hend := h.stop.resolve_right Bool.false_ne_true
    omega

theorem oneBlock_bit_stat (b : ℤ) : oneBlock.bit_stat b = true ↔ 0 ≤ b ∧ b < 3584 := by
  change (if _ then true else false) = true ↔ _
  simp

theorem reachable_twoBlocks : Reachable (only twoBlocks) := by
  have hreach := reachable_oneBlock.alloc (n := 256) (by decide) (by decide)
    fun i _ => sampleMmap_region i
  have hclear : ∀ b, 3584 ≤ b → oneBlock.bit_stat b = false := fun b hb =>
    Bool.eq_false_iff.mpr fun h => by
      have := (oneBlock_bit_stat b).mp h
      omega
  have ha := @alloc_only oneBlock 256 3584 512 (by decide) (by decide) (Or.inr rfl)
    ⟨⟨by decide, fun b hb _ => hclear b hb, Or.inl (by decide)⟩, by decide,
      Or.inr ((oneBlock_bit_stat _).mpr (by decide))⟩ (by decide) ?_
  · rw [ha] at hreach
    exact hreach
  · intro off len h _
    have hpos := h.pos
    have hlo : 3584 ≤ off := by
      by_contra hlt
      have hset := (oneBlock_bit_stat off).mpr (by omega)
      rw [h.clear off (le_refl _) (by omega)] at hset
      exact Bool.false_ne_true hset
    have hend : (off : ℤ) + len = PAGESIZE := h.stop.resolve_right fun hs => by
      have := (oneBlock_bit_stat _).mp hs
      omega
    have hstart := h.start
    rw [oneBlock_bit_stat] at hstart
    simp only [PAGESIZE] at hend
    omega

/-- When the first of the two blocks is released, page 0 has a free run of 3584 bytes and then one
of 256. -/
theorem exists_short_run : ∃ P : Pages, Reachable P ∧ (P 0).page_start = PAGESIZE ∧
    (∀ i ≠ 0, (P i).page_start = 0) ∧
    ∀ b, (P 0).bit_stat b = true ↔ 3584 ≤ b ∧ b < 3840 := by
  have hd : dealloc PAGESIZE (only twoBlocks) =
      only ((twoBlocks.fill 0 3584 false).setEntry ⟨0, by decide⟩ {}) := by
    have hf : find PAGESIZE (only twoBlocks) = some (0, ⟨0, by decide⟩) := rfl
    simp only [dealloc, hf, only_zero]
    exact Function.update_idem _ _ _
  refine ⟨_, reachable_twoBlocks.dealloc PAGESIZE, ?_, fun i hi => ?_, fun b => ?_⟩
  · rw [hd, only_zero]
    rfl
  · rw [hd, only_ne _ hi]
  · rw [hd, only_zero]
    change (if _ then false else if _ then true else oneBlock.bit_stat b) = true ↔ _
    have := oneBlock_bit_stat b
    split
    · simp only [Bool.false_eq_true, false_iff]
      omega
    · split
      · simp only [true_iff]
        omega
      · rw [this]
        omega

/-- There `alloc(256)` takes the short run, and no other page is mapped. -/
theorem practice_best_fit_short : ∃ P P' : Pages, Reachable P ∧
    (∀ b, (P 0).bit_stat b = true ↔ 3584 ≤ b ∧ b < 3840) ∧
    alloc 256 sampleMmap P = (some (PAGESIZE + 3840), P') ∧
    Expanded 256 sampleMmap P P' ∧ BestFit 256 P P' (some (PAGESIZE + 3840)) := by
  obtain ⟨P, hr, hstart, hother, hbit⟩ := exists_short_run
  obtain ⟨r, P', ha⟩ : ∃ r P', alloc 256 sampleMmap P = (r, P') := ⟨_, _, rfl⟩
  obtain ⟨hex, hfit⟩ := practice_best_fit hr (by decide) (by decide)
    (fun i _ => sampleMmap_region i) ha
  have hclear : ∀ b, 3840 ≤ b → (P 0).bit_stat b = false := fun b hb =>
    Bool.eq_false_iff.mpr fun h => by
      have := (hbit b).mp h
      omega
  have hstart' : (P' 0).page_start = PAGESIZE := (hex.kept 0 (by rw [hstart]; decide)).trans hstart
  have hroom : Room P P' 256 0 3840 256 :=
    ⟨by rw [hstart']; decide, ⟨⟨by decide, fun b hb _ => hclear b hb, Or.inl (by decide)⟩,
      by decide, Or.inr ((hbit _).mpr (by decide))⟩, le_refl _⟩
  cases r with
  | none => exact absurd hroom (hfit.2.1 0 3840 256)
  | some addr =>
    have hfit' := hfit
    obtain ⟨i, off, len, hs, rfl, -⟩ := hfit'
    obtain rfl : i = 0 := by
      by_contra hi
      exact hs.1.1 (hex.skipped i (hother i hi) 0 (Fin.pos_iff_ne_zero.mpr hi) 3840 256 hroom)
    have hlen : len = 256 := by
      have hfits := hs.1.2.2
      rcases hs.2 0 3840 256 hroom with hlt | ⟨he, -⟩
      · omega
      · exact he
    obtain rfl : off = 3840 := by
      have hrun := hs.1.2.1
      rcases hrun.start with h0 | h0
      · have hstop := hrun.stop
        rw [hbit] at hstop
        simp only [PAGESIZE] at hstop
        omega
      · have hset := (hbit _).mp h0
        have hfree := hrun.clear off (le_refl _) (by omega)
        by_contra hne
        rw [(hbit off).mpr (by omega)] at hfree
        exact Bool.false_ne_true hfree.symm
    rw [hstart'] at ha hfit
    exact ⟨P, P', hr, hbit, ha, hex, hfit⟩

end OsLabs.Malloc.Practice
