import OsLabs.Malloc.Alloc

/-!
# First fit

`alloc.c` over sequences of `alloc` of positive multiples of `MINALLOC` and `dealloc`.

* `Sized`: a page represents its blocks, and each has at least `MINALLOC` bytes. By counting, such
  a page with a clear byte has an unused entry (`Sized.exists_freeEntry`), so the table never
  stands in the way of a block that fits.
* `Sized.dealloc_eq`: releasing a block takes out that block.
* `allocLoop_first`: the loop takes the first place from which `size` bytes are free, although it
  looks at the first place of every free run only.
* `alloc_first_fit`: what `alloc` returns and does in every reachable state.
-/

namespace OsLabs.Malloc.Alloc

/-- The `size` bytes from place `i` on are in the page and free. -/
def FreeAt (bit_stat : ℤ → Bool) (size : ℤ) (i : ℕ) : Prop :=
  i + size ≤ PAGESIZE ∧ ∀ b : ℤ, i ≤ b → b < i + size → bit_stat b = false

/-- A page that represents its blocks, each of at least `MINALLOC` bytes. -/
structure Sized (P : State) : Prop where
  rep : P.Rep
  size : ∀ k, (P.table k).alloc_or_not = true → (MINALLOC : ℤ) ≤ (P.table k).length

namespace Sized

variable {P : State} {k l : Fin (PAGESIZE / MINALLOC)}

/-- A page with a clear byte has an unused entry: 512 blocks of 8 bytes fill it. -/
theorem exists_freeEntry (h : Sized P) {b : ℤ} (hb : b ∈ Finset.Ico (0 : ℤ) PAGESIZE)
    (hclear : P.bit_stat b = false) : ∃ k, P.freeEntry = some k := by
  cases hk : P.freeEntry with
  | some k => exact ⟨k, rfl⟩
  | none =>
    have hused := PageInfo.freeEntry_none hk
    have hset : P.bit_stat b = true := by
      refine h.rep.tiles.full (m := MINALLOC) (D := Finset.Ico (0 : ℤ) PAGESIZE) (fun k => ?_)
        (fun k => ?_) ?_ hb
      · rw [PageInfo.block_of_used (hused k)]
        exact h.rep.interval_subset k (hused k)
      · rw [PageInfo.block_of_used (hused k), PageInfo.interval, Int.card_Ico]
        have := h.size k (hused k)
        omega
      · rw [Int.card_Ico, Fintype.card_fin]
        decide
    rw [hclear] at hset
    exact absurd hset Bool.false_ne_true

theorem init (p : ℕ) (P : State) : Sized (init_alloc (some p) P).2 :=
  ⟨PageInfo.rep_init p, fun _ h => absurd h Bool.false_ne_true⟩

/-- A block on free bytes goes into an unused entry. -/
theorem record (h : Sized P) {i : ℕ} {size : ℤ}
    (hk : (P.table k).alloc_or_not = false) (hsize : (MINALLOC : ℤ) ≤ size)
    (hfree : FreeAt P.bit_stat size i) :
    Sized ((P.fill i (i + size) true).setEntry k ⟨P.page_start + i, size, true⟩) := by
  have hle := hfree.1
  refine ⟨h.rep.record hk (by simp only [MINALLOC] at hsize; omega) hle hfree.2, fun l hl => ?_⟩
  by_cases hlk : l = k
  · subst hlk
    rw [PageInfo.setEntry_self]
    exact hsize
  · rw [PageInfo.setEntry_of_ne hlk] at hl ⊢
    exact h.size l hl

theorem dealloc (h : Sized P) (addr : ℕ) : Sized (dealloc addr P) := by
  refine ⟨dealloc_rep h.rep addr, fun l hl => ?_⟩
  unfold Alloc.dealloc at hl ⊢
  split at hl
  · rename_i k hk
    by_cases hlk : l = k
    · subst hlk
      rw [PageInfo.setEntry_self] at hl
      exact absurd hl Bool.false_ne_true
    · rw [PageInfo.setEntry_of_ne hlk] at hl ⊢
      exact h.size l hl
  · exact h.size l hl

/-- Two blocks do not start at the same address. -/
theorem start_injective (h : Sized P) (hk : (P.table k).alloc_or_not = true)
    (hl : (P.table l).alloc_or_not = true)
    (heq : (P.table l).start_addr = (P.table k).start_addr) : l = k := by
  by_contra hlk
  have hlen := h.size l hl
  have hlen' := h.size k hk
  have hmem : ((P.table l).start_addr - P.page_start : ℤ) ∈ P.interval l :=
    Finset.mem_Ico.mpr (by simp only [MINALLOC] at hlen; omega)
  refine Finset.disjoint_left.mp (h.rep.apart l k hlk hl hk) hmem ?_
  rw [heq]
  exact Finset.mem_Ico.mpr (by simp only [MINALLOC] at hlen'; omega)

/-- The first entry with the address of a block is the block's own. -/
theorem entryAt_eq (h : Sized P) (hp : P.page_start ≠ 0)
    (hk : (P.table k).alloc_or_not = true) : P.entryAt (P.table k).start_addr = some k := by
  cases hf : P.entryAt (P.table k).start_addr with
  | none => exact absurd rfl (PageInfo.entryAt_none hf k)
  | some l =>
    have heq := PageInfo.entryAt_some hf
    have hl : (P.table l).alloc_or_not = true := by
      by_contra hl
      rw [h.rep.unused l (Bool.not_eq_true _ ▸ hl)] at heq
      change 0 = _ at heq
      have := (h.rep.inside k hk).1
      omega
    rw [h.start_injective hk hl heq]

/-- Releasing a block takes out that block. -/
theorem dealloc_eq (h : Sized P) (hp : P.page_start ≠ 0)
    (hk : (P.table k).alloc_or_not = true) :
    let off : ℤ := (P.table k).start_addr - P.page_start
    Alloc.dealloc (P.table k).start_addr P =
      (P.fill off (off + (P.table k).length) false).setEntry k {} := by
  have htrunc := h.rep.trunc_offset hk rfl
  unfold Alloc.dealloc
  rw [h.entryAt_eq hp hk]
  simp only []
  rw [htrunc]

end Sized

/-! ## The loop -/

section Loop

variable {P : State} {size : ℤ}

/-- Where a free run is too short, no place of it has room. -/
theorem not_freeAt_of_short {bit_stat : ℤ → Bool} {i j : ℕ} (hi : i < PAGESIZE) (hij : i ≤ j)
    (hj : j ≤ runEnd bit_stat (i + 1)) (hshort : ¬(runEnd bit_stat (i + 1) : ℤ) - i + 1 ≥ size) :
    ¬FreeAt bit_stat size j := by
  rintro ⟨hle, hclear⟩
  obtain ⟨-, -, -, hstop⟩ := @runEnd_spec bit_stat (i + 1) (by omega) hi
  rcases hstop with hstop | hstop
  · omega
  · rw [hclear _ (by omega) (by push_cast; omega)] at hstop
    exact Bool.false_ne_true hstop

/-- What the loop gives when no place before `i` has room: the first place that has. -/
def FirstFit (P : State) (size : ℤ) (out : Option ℕ × State) : Prop :=
  (out = (none, P) ∧ ∀ j, ¬FreeAt P.bit_stat size j) ∨
    ∃ j k, FreeAt P.bit_stat size j ∧ (∀ l < j, ¬FreeAt P.bit_stat size l) ∧
      (P.table k).alloc_or_not = false ∧ out = (some (P.page_start + j),
        (P.fill j (j + size) true).setEntry k ⟨P.page_start + j, size, true⟩)

/-- The loop finds the first place with room. -/
theorem allocLoop_first (h : Sized P) (hsize : 0 < size) (i : ℕ)
    (hi : ∀ j < i, ¬FreeAt P.bit_stat size j) : FirstFit P size (allocLoop size P i) := by
  fun_induction allocLoop size P i with
  | case1 i hlt hbit ih =>
    refine ih fun j hj => ?_
    rcases Nat.lt_succ_iff_lt_or_eq.mp hj with hj | rfl
    · exact hi j hj
    · rintro ⟨-, hclear⟩
      rw [hclear j (le_refl _) (by omega)] at hbit
      exact Bool.false_ne_true hbit
  | case2 i hlt hbit end_ hend hlong k hk =>
    obtain ⟨-, hpage, hclear, -⟩ := @runEnd_spec P.bit_stat (i + 1) (by omega) hlt
    refine Or.inr ⟨i, k, ⟨by omega, fun b hb hb' => ?_⟩, hi, PageInfo.freeEntry_some hk, rfl⟩
    obtain ⟨c, rfl⟩ := Int.eq_ofNat_of_zero_le (a := b) (by omega)
    by_cases hc : c = i
    · rw [hc]
      exact Bool.not_eq_true _ ▸ hbit
    · exact hclear c (by omega) (by omega)
  | case3 i hlt hbit end_ hend hlong hk ih =>
    -- the byte at `i` is free, so the table has an unused entry
    obtain ⟨k, hk'⟩ := h.exists_freeEntry (b := i) (Finset.mem_Ico.mpr (by omega))
      (Bool.not_eq_true _ ▸ hbit)
    rw [hk] at hk'
    cases hk'
  | case4 i hlt hbit end_ hend hshort ih =>
    refine ih fun j hj => ?_
    by_cases hji : j < i
    · exact hi j hji
    · exact not_freeAt_of_short hlt (by omega) (by omega) hshort
  | case5 i hge =>
    refine Or.inl ⟨rfl, fun j hj => ?_⟩
    by_cases hji : j < i
    · exact hi j hji hj
    · have := hj.1
      omega

theorem alloc_first (h : Sized P) (hsize : 0 < size) (hmul : size % MINALLOC = 0) :
    FirstFit P size (alloc size P) := by
  unfold alloc
  rw [if_neg (not_not_intro (tmod_of_emod hsize hmul))]
  exact allocLoop_first h hsize 0 fun j hj => absurd hj (Nat.not_lt_zero j)

/-- `alloc` takes a place with room where no place before it has any. -/
theorem alloc_takes (h : Sized P) (hsize : 0 < size) (hmul : size % MINALLOC = 0) {j : ℕ}
    (hfree : FreeAt P.bit_stat size j) (hfirst : ∀ l < j, ¬FreeAt P.bit_stat size l) :
    ∃ k, (P.table k).alloc_or_not = false ∧ alloc size P = (some (P.page_start + j),
      (P.fill j (j + size) true).setEntry k ⟨P.page_start + j, size, true⟩) := by
  rcases alloc_first h hsize hmul with ⟨-, hno⟩ | ⟨i, k, hfree', hfirst', hk, hout⟩
  · exact absurd hfree (hno j)
  · obtain rfl : i = j := by
      rcases lt_trichotomy i j with hlt | he | hlt
      · exact absurd hfree' (hfirst i hlt)
      · exact he
      · exact absurd hfree (hfirst' j hlt)
    exact ⟨k, hk, hout⟩

theorem Sized.alloc (h : Sized P) (hsize : 0 < size) (hmul : size % MINALLOC = 0) :
    Sized (alloc size P).2 := by
  rcases alloc_first h hsize hmul with ⟨hout, -⟩ | ⟨j, k, hfree, -, hk, hout⟩
  · rw [hout]
    exact h
  · rw [hout]
    exact h.record hk (by simp only [MINALLOC] at hmul ⊢; omega) hfree

end Loop

/-- The states after a successful `init_alloc` and a sequence of calls: `alloc` of positive
multiples of `MINALLOC` and `dealloc` of any address. `mmap` never returns the page at `NULL`. -/
inductive Reachable : State → Prop
  | init {p : ℕ} (hp : p ≠ 0) (P : State) : Reachable (init_alloc (some p) P).2
  | alloc {P : State} {size : ℤ} (h : Reachable P) (hsize : 0 < size)
      (hmul : size % MINALLOC = 0) : Reachable (alloc size P).2
  | dealloc {P : State} (h : Reachable P) (addr : ℕ) : Reachable (dealloc addr P)

theorem sized_of_reachable {P : State} (h : Reachable P) : Sized P := by
  induction h with
  | init _ P => exact Sized.init _ P
  | alloc _ hsize hmul ih => exact ih.alloc hsize hmul
  | dealloc _ addr ih => exact ih.dealloc addr

/-- In every reachable state `alloc` fails, with nothing changed, exactly when no `size` bytes in a
row are free, and otherwise it returns the first place from which they are. It marks these bytes
and no others, and enters the block in one unused entry of the table. -/
theorem alloc_first_fit {P Q : State} (h : Reachable P) {size : ℤ} (hsize : 0 < size)
    (hmul : size % MINALLOC = 0) {r : Option ℕ} (ha : alloc size P = (r, Q)) :
    (r = none ↔ ∀ i, ¬FreeAt P.bit_stat size i) ∧ (r = none → Q = P) ∧
    ∀ addr, r = some addr → ∃ i, FreeAt P.bit_stat size i ∧
      (∀ j < i, ¬FreeAt P.bit_stat size j) ∧ addr = P.page_start + i ∧
      Q.page_start = P.page_start ∧
      (∀ b : ℤ, Q.bit_stat b = if i ≤ b ∧ b < i + size then true else P.bit_stat b) ∧
      ∃ k, (P.table k).alloc_or_not = false ∧
        Q.table = Function.update P.table k ⟨addr, size, true⟩ := by
  have hfit := alloc_first (sized_of_reachable h) hsize hmul
  rw [ha] at hfit
  rcases hfit with ⟨hout, hno⟩ | ⟨j, k, hfree, hfirst, hk, hout⟩
  · obtain ⟨rfl, rfl⟩ := Prod.mk.inj hout
    exact ⟨iff_of_true rfl hno, fun _ => rfl,
      fun addr hr => absurd hr (Option.some_ne_none addr).symm⟩
  · obtain ⟨rfl, rfl⟩ := Prod.mk.inj hout
    refine ⟨iff_of_false (Option.some_ne_none _) fun hno => hno j hfree,
      fun hr => absurd hr (Option.some_ne_none _), fun addr hr => ?_⟩
    obtain rfl := Option.some.inj hr
    exact ⟨j, hfree, hfirst, rfl, rfl, fun b => rfl, k, hk, rfl⟩

/-- `alloc(512)`, `alloc(256)`, and the first block is released: only the bytes of the second are
marked. -/
theorem exists_hole : ∃ P : State, Reachable P ∧ P.page_start = PAGESIZE ∧
    ∀ b, P.bit_stat b = true ↔ 512 ≤ b ∧ b < 768 := by
  have hr₀ : Reachable (init_alloc (some PAGESIZE) {}).2 := .init (by decide) {}
  obtain ⟨k₁, -, ha₁⟩ := alloc_takes (sized_of_reachable hr₀) (by decide : (0 : ℤ) < 512)
    (by decide) (j := 0) ⟨by decide, fun _ _ _ => rfl⟩ fun l hl => absurd hl (Nat.not_lt_zero l)
  have hr₁ := hr₀.alloc (by decide : (0 : ℤ) < 512) (by decide)
  rw [ha₁] at hr₁
  set P₁ := ((init_alloc (some PAGESIZE) {}).2.fill 0 512 true).setEntry k₁ ⟨PAGESIZE, 512, true⟩
    with hP₁
  have hr₁ : Reachable P₁ := hr₁
  have hbit₁ : ∀ b, P₁.bit_stat b = true ↔ 0 ≤ b ∧ b < 512 := fun b => by
    change (if _ then true else false) = true ↔ _
    simp
  have hstart₁ : P₁.page_start = PAGESIZE := rfl
  have htable₁ : P₁.table k₁ = ⟨PAGESIZE, 512, true⟩ := PageInfo.setEntry_self k₁ _
  clear_value P₁
  have hfree : FreeAt P₁.bit_stat 256 512 := ⟨by decide, fun b hb _ =>
    Bool.eq_false_iff.mpr fun h => by
      have := (hbit₁ b).mp h
      omega⟩
  obtain ⟨k₂, hk₂, ha₂⟩ := alloc_takes (sized_of_reachable hr₁) (by decide : (0 : ℤ) < 256)
    (by decide) hfree fun l hl hl' => by
      have hset := (hbit₁ l).mpr (by omega)
      rw [hl'.2 l (le_refl _) (by omega)] at hset
      exact Bool.false_ne_true hset
  have hr₂ := hr₁.alloc (by decide : (0 : ℤ) < 256) (by decide)
  rw [ha₂, hstart₁] at hr₂
  set P₂ := (P₁.fill 512 768 true).setEntry k₂ ⟨PAGESIZE + 512, 256, true⟩ with hP₂
  have hr₂ : Reachable P₂ := hr₂
  clear_value P₂
  have hne : k₁ ≠ k₂ := fun e => by
    rw [← e, hP₁, PageInfo.setEntry_self] at hk₂
    exact Bool.false_ne_true hk₂.symm
  have htable : P₂.table k₁ = ⟨PAGESIZE, 512, true⟩ := by
    rw [hP₂, PageInfo.setEntry_of_ne hne]
    exact htable₁
  have hstart₂ : P₂.page_start = PAGESIZE := by
    rw [hP₂]
    exact hstart₁
  have hd := (sized_of_reachable hr₂).dealloc_eq (k := k₁)
    (by rw [hstart₂]; exact (by decide : PAGESIZE ≠ 0)) (by rw [htable])
  simp only [htable, hstart₂, sub_self, zero_add] at hd
  refine ⟨_, hr₂.dealloc PAGESIZE, by rw [hd]; exact hstart₂, fun b => ?_⟩
  rw [hd, hP₂]
  change (if _ then false else if _ then true else P₁.bit_stat b) = true ↔ _
  have := hbit₁ b
  split
  · simp only [Bool.false_eq_true, false_iff]
    omega
  · split
    · simp only [true_iff]
      omega
    · rw [this]
      omega

/-- The hole is too small for `alloc(1024)`, which takes the bytes behind the second block. -/
theorem alloc_first_fit_hole : ∃ P Q : State, Reachable P ∧
    (∀ b, P.bit_stat b = true ↔ 512 ≤ b ∧ b < 768) ∧
    alloc 1024 P = (some (P.page_start + 768), Q) := by
  obtain ⟨P, hr, -, hbit⟩ := exists_hole
  have hfree : FreeAt P.bit_stat 1024 768 := ⟨by decide, fun b hb _ =>
    Bool.eq_false_iff.mpr fun h => by
      have := (hbit b).mp h
      omega⟩
  obtain ⟨r, Q, ha⟩ : ∃ r Q, alloc 1024 P = (r, Q) := ⟨_, _, rfl⟩
  obtain ⟨hnone, -, hsome⟩ := alloc_first_fit hr (by decide) (by decide) ha
  cases r with
  | none => exact absurd hfree (hnone.mp rfl 768)
  | some addr =>
    obtain ⟨i, hi, hfirst, haddr, -⟩ := hsome addr rfl
    obtain rfl : i = 768 := by
      rcases lt_trichotomy i 768 with hlt | he | hlt
      · -- 1024 bytes from a place before 768 on would contain one of the second block
        have hclear := hi.2 (max i 512 : ℕ) (by omega) (by omega)
        rw [(hbit _).mpr (by omega)] at hclear
        exact absurd hclear.symm Bool.false_ne_true
      · exact he
      · exact absurd hfree (hfirst 768 hlt)
    exact ⟨P, Q, hr, hbit, haddr ▸ ha⟩

end OsLabs.Malloc.Alloc
