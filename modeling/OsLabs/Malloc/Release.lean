import OsLabs.Malloc.FirstFit

/-!
# Releasing blocks

`dealloc` of `alloc.c` finds a block by its address alone. Where every block has at least
`MINALLOC` bytes the addresses of the blocks are different, so it finds the block that is meant.

* `release_order`: releasing several blocks has the same result in every order, and after all
  blocks are released the whole page is free;
* `live_distinct`: the blocks that a caller holds have different addresses, in every sequence of
  calls in which no request for 0 or fewer bytes is granted;
* `live_not_distinct`: a block of no bytes and the next one share their address.
-/

namespace OsLabs.Malloc.Alloc

/-- A block starts at `addr`. -/
def Live (P : State) (addr : ℕ) : Prop :=
  ∃ k, (P.table k).alloc_or_not = true ∧ (P.table k).start_addr = addr

/-- The blocks: address and length. -/
def blocks (P : State) : Set (ℕ × ℤ) := {x | ∃ k, P.table k = ⟨x.1, x.2, true⟩}

section Dealloc

variable {P : State} {k l : Fin (PAGESIZE / MINALLOC)} {a b : ℕ}

theorem table_eq (hk : (P.table k).alloc_or_not = true) :
    P.table k = ⟨(P.table k).start_addr, (P.table k).length, true⟩ := by rw [← hk]

theorem live_iff : Live P a ↔ ∃ n, (a, n) ∈ blocks P :=
  ⟨fun ⟨k, hk, ha⟩ => ⟨(P.table k).length, k, by rw [table_eq hk, ha]⟩,
    fun ⟨_, k, hk⟩ => ⟨k, by rw [hk], by rw [hk]⟩⟩

/-- An address where no block starts is none for `dealloc`. -/
theorem Sized.dealloc_of_not_live (h : Sized P) (ha : ¬Live P a) : Alloc.dealloc a P = P := by
  unfold Alloc.dealloc
  split
  · rename_i k hk
    have haddr := PageInfo.entryAt_some hk
    have hunused : (P.table k).alloc_or_not = false :=
      Bool.eq_false_iff.mpr fun hused => ha ⟨k, hused, haddr⟩
    have hentry := h.rep.unused k hunused
    have hzero : a = 0 := by rw [← haddr, hentry]
    -- the entry is unused already, and the loop over its bytes is empty
    have htable : Function.update P.table k {} = P.table := by
      rw [← hentry, Function.update_eq_self]
    have hfill : ∀ lo : ℤ, (0 : ℤ) - P.page_start ≤ lo →
        P.fill lo ((0 : ℕ) - P.page_start + (P.table k).length) false = P := fun lo hlo => by
      have hlen : (P.table k).length = 0 := by rw [hentry]
      rw [hlen]
      exact PageInfo.fill_of_le (by push_cast; omega) false
    subst hzero
    rw [hfill]
    · simp only [PageInfo.setEntry, htable]
    · rw [Int.bmod_def]
      split <;> simp only [Nat.cast_zero] at * <;> omega
  · rfl

theorem dealloc_page_start (a : ℕ) (P : State) : (Alloc.dealloc a P).page_start = P.page_start := by
  unfold Alloc.dealloc
  split <;> rfl

/-- The blocks after a block has been released. -/
theorem Sized.mem_blocks_dealloc (h : Sized P) (hp : P.page_start ≠ 0) (ha : Live P a)
    (x : ℕ × ℤ) : x ∈ blocks (Alloc.dealloc a P) ↔ x ∈ blocks P ∧ x.1 ≠ a := by
  obtain ⟨k, hk, rfl⟩ := ha
  rw [h.dealloc_eq hp hk]
  constructor
  · rintro ⟨l, hl⟩
    have hlk : l ≠ k := by
      rintro rfl
      rw [PageInfo.setEntry_self] at hl
      exact Bool.false_ne_true (congrArg MemInfo.alloc_or_not hl)
    rw [PageInfo.setEntry_of_ne hlk] at hl
    change P.table l = _ at hl
    refine ⟨⟨l, hl⟩, fun heq => hlk (h.start_injective hk ?_ ?_)⟩
    · rw [hl]
    · rw [hl, heq]
  · rintro ⟨⟨l, hl⟩, hne⟩
    have hlk : l ≠ k := fun e => hne (by rw [← e, hl])
    refine ⟨l, ?_⟩
    rw [PageInfo.setEntry_of_ne hlk]
    exact hl

theorem Sized.live_dealloc (h : Sized P) (hp : P.page_start ≠ 0) (ha : Live P a) :
    Live (Alloc.dealloc a P) b ↔ Live P b ∧ b ≠ a := by
  rw [live_iff, live_iff, ← exists_and_right]
  exact exists_congr fun n => h.mem_blocks_dealloc hp ha (b, n)

/-- The blocks after a block has been allocated, at an address where none was. -/
theorem Sized.mem_blocks_alloc (h : Sized P) {size : ℤ} (hsize : 0 < size)
    (hmul : size % MINALLOC = 0) (ha : (Alloc.alloc size P).1 = some a) :
    ¬Live P a ∧ ∀ x, x ∈ blocks (Alloc.alloc size P).2 ↔ x = (a, size) ∨ x ∈ blocks P := by
  have hs := h.alloc hsize hmul
  rcases alloc_first h hsize hmul with ⟨hout, -⟩ | ⟨j, k, -, -, hk, hout⟩
  · rw [hout] at ha
    cases ha
  rw [hout] at ha hs ⊢
  obtain rfl := Option.some.inj ha
  set Q := (P.fill j (j + size) true).setEntry k ⟨P.page_start + j, size, true⟩ with hQ
  have hself : Q.table k = ⟨P.page_start + j, size, true⟩ := PageInfo.setEntry_self ..
  have hother : ∀ l, l ≠ k → Q.table l = P.table l := fun l hl => PageInfo.setEntry_of_ne hl ..
  have hne : ∀ l, (P.table l).alloc_or_not = true → l ≠ k := by
    rintro l hl rfl
    rw [hk] at hl
    exact Bool.false_ne_true hl
  refine ⟨?_, fun x => ⟨?_, ?_⟩⟩
  · rintro ⟨l, hl, haddr⟩
    have hlk := hne l hl
    refine hlk (hs.start_injective (by rw [hself]) ?_ ?_)
    · rw [hother l hlk]
      exact hl
    · rw [hother l hlk, hself]
      exact haddr
  · rintro ⟨l, hl⟩
    by_cases hlk : l = k
    · rw [hlk, hself] at hl
      obtain ⟨h₁, h₂, -⟩ := MemInfo.mk.inj hl
      exact Or.inl (Prod.ext h₁.symm h₂.symm)
    · rw [hother l hlk] at hl
      exact Or.inr ⟨l, hl⟩
  · rintro (rfl | ⟨l, hl⟩)
    · exact ⟨k, hself⟩
    · exact ⟨l, by rw [hother l (hne l (by rw [hl]))]; exact hl⟩

/-- Two blocks can be released in either order. -/
theorem Sized.dealloc_comm (h : Sized P) (hp : P.page_start ≠ 0) (ha : Live P a) (hb : Live P b)
    (hab : a ≠ b) :
    Alloc.dealloc b (Alloc.dealloc a P) = Alloc.dealloc a (Alloc.dealloc b P) := by
  obtain ⟨k, hk, rfl⟩ := ha
  obtain ⟨l, hl, rfl⟩ := hb
  have hkl : k ≠ l := fun e => hab (by rw [e])
  have hk' := h.dealloc_eq hp hk
  have hl' := h.dealloc_eq hp hl
  -- each of the two entries is still there after the other one has been cleared
  have hlk : (Alloc.dealloc (P.table k).start_addr P).table l = P.table l := by
    rw [hk', PageInfo.setEntry_of_ne hkl.symm]
    rfl
  have hkl' : (Alloc.dealloc (P.table l).start_addr P).table k = P.table k := by
    rw [hl', PageInfo.setEntry_of_ne hkl]
    rfl
  have hused : ((Alloc.dealloc (P.table k).start_addr P).table l).alloc_or_not = true := by
    rw [hlk]
    exact hl
  have hused' : ((Alloc.dealloc (P.table l).start_addr P).table k).alloc_or_not = true := by
    rw [hkl']
    exact hk
  have hstart : ∀ c, (Alloc.dealloc c P).page_start ≠ 0 := fun c => by
    rw [dealloc_page_start]
    exact hp
  have h₁ := (h.dealloc (P.table k).start_addr).dealloc_eq (hstart _) hused
  have h₂ := (h.dealloc (P.table l).start_addr).dealloc_eq (hstart _) hused'
  rw [hlk, dealloc_page_start] at h₁
  rw [hkl', dealloc_page_start] at h₂
  rw [h₁, h₂, hk', hl']
  exact PageInfo.fill_setEntry_comm hkl ..

end Dealloc

/-! ## Several blocks -/

/-- Release the blocks at the addresses `L`, the first one first. -/
def deallocs (L : List ℕ) (P : State) : State := L.foldl (fun P a => Alloc.dealloc a P) P

theorem deallocs_cons (c : ℕ) (L : List ℕ) (P : State) :
    deallocs (c :: L) P = deallocs L (Alloc.dealloc c P) := by
  simp only [deallocs, List.foldl_cons]

/-- What the calls of a sequence return; `dealloc` returns nothing. -/
def results : List Op → State → List (Option ℕ)
  | [], _ => []
  | op@(.alloc size) :: ops, P => (Alloc.alloc size P).1 :: results ops (op.run P)
  | op@(.dealloc _) :: ops, P => none :: results ops (op.run P)

section Deallocs

variable {P : State} {L L' : List ℕ}

/-- The blocks that are left. -/
theorem Sized.deallocs (h : Sized P) (hp : P.page_start ≠ 0) (hL : ∀ a ∈ L, Live P a)
    (hnd : L.Nodup) : Sized (Alloc.deallocs L P) ∧
      (Alloc.deallocs L P).page_start = P.page_start ∧
      ∀ a, Live (Alloc.deallocs L P) a ↔ Live P a ∧ a ∉ L := by
  induction L generalizing P with
  | nil => exact ⟨h, rfl, fun a => by simp [Alloc.deallocs]⟩
  | cons c L ih =>
    obtain ⟨hc, hnd⟩ := List.nodup_cons.mp hnd
    have hlive : ∀ a, Live (Alloc.dealloc c P) a ↔ Live P a ∧ a ≠ c :=
      fun a => h.live_dealloc hp (hL c List.mem_cons_self)
    have hstart : (Alloc.dealloc c P).page_start ≠ 0 := by
      rw [dealloc_page_start]
      exact hp
    obtain ⟨hs, hstart, hl⟩ := ih (h.dealloc c) hstart
      (fun a ha => (hlive a).mpr ⟨hL a (List.mem_cons_of_mem c ha), fun e => hc (e ▸ ha)⟩) hnd
    rw [deallocs_cons]
    refine ⟨hs, hstart.trans (dealloc_page_start c P), fun a => (hl a).trans ?_⟩
    rw [hlive, List.mem_cons, not_or, and_assoc]

/-- The order does not matter. -/
theorem Sized.deallocs_perm (h : Sized P) (hp : P.page_start ≠ 0) (hperm : L.Perm L')
    (hL : ∀ a ∈ L, Live P a) (hnd : L.Nodup) : Alloc.deallocs L P = Alloc.deallocs L' P := by
  induction hperm generalizing P with
  | nil => rfl
  | cons c _ ih =>
    obtain ⟨hc, hnd⟩ := List.nodup_cons.mp hnd
    have hstart : (Alloc.dealloc c P).page_start ≠ 0 := by
      rw [dealloc_page_start]
      exact hp
    rw [deallocs_cons, deallocs_cons]
    refine ih (h.dealloc c) hstart (fun a ha => ?_) hnd
    exact (h.live_dealloc hp (hL c List.mem_cons_self)).mpr
      ⟨hL a (List.mem_cons_of_mem c ha), fun e => hc (e ▸ ha)⟩
  | swap c d L =>
    have hne : d ≠ c := fun e => (List.nodup_cons.mp hnd).1 (by simp [e])
    rw [deallocs_cons, deallocs_cons, deallocs_cons, deallocs_cons,
      h.dealloc_comm hp (hL d (by simp)) (hL c (by simp)) hne]
  | trans hperm _ ih ih' =>
    refine (ih h hp hL hnd).trans (ih' h hp (fun a ha => hL a (hperm.mem_iff.mpr ha)) ?_)
    exact hperm.nodup_iff.mp hnd

/-- A page without blocks is free from its start to its end. -/
theorem Sized.alloc_page (h : Sized P) (hno : ∀ a, ¬Live P a) :
    (Alloc.alloc PAGESIZE P).1 = some P.page_start := by
  have hfree : FreeAt P.bit_stat PAGESIZE 0 := by
    refine ⟨by omega, fun b _ _ => Bool.eq_false_iff.mpr fun hb => ?_⟩
    obtain ⟨k, hk, -⟩ := (h.rep.bits b).mp hb
    exact hno _ ⟨k, hk, rfl⟩
  rcases alloc_first h (by decide : (0 : ℤ) < PAGESIZE) (by decide) with
    ⟨-, hnone⟩ | ⟨j, k, -, hfirst, -, hout⟩
  · exact absurd hfree (hnone 0)
  · obtain rfl : j = 0 := by
      by_contra hj
      exact hfirst 0 (Nat.pos_of_ne_zero hj) hfree
    rw [hout]
    rfl

end Deallocs

theorem Sized.alloc_page_start {P : State} (h : Sized P) {size : ℤ} (hsize : 0 < size)
    (hmul : size % MINALLOC = 0) : (Alloc.alloc size P).2.page_start = P.page_start := by
  rcases alloc_first h hsize hmul with ⟨hout, -⟩ | ⟨j, k, -, -, -, hout⟩
  · rw [hout]
  · rw [hout]
    rfl

theorem page_start_ne_zero {P : State} (h : Reachable P) : P.page_start ≠ 0 := by
  induction h with
  | init hp _ => exact hp
  | alloc h hsize hmul ih => rwa [(sized_of_reachable h).alloc_page_start hsize hmul]
  | dealloc _ addr ih => rwa [dealloc_page_start]

/-- Where there is room `alloc` succeeds. -/
theorem Sized.exists_alloc {P : State} (h : Sized P) {size : ℤ} (hsize : 0 < size)
    (hmul : size % MINALLOC = 0) {i : ℕ} (hfree : FreeAt P.bit_stat size i) :
    ∃ a, (Alloc.alloc size P).1 = some a := by
  rcases alloc_first h hsize hmul with ⟨-, hnone⟩ | ⟨j, k, -, -, -, hout⟩
  · exact absurd hfree (hnone i)
  · exact ⟨_, congrArg Prod.fst hout⟩

/-- The first call after `init_alloc`. -/
theorem alloc_init (p : ℕ) (P : State) {size : ℤ} (hsize : 0 < size) (hmul : size % MINALLOC = 0)
    (hle : size ≤ PAGESIZE) : ∃ k, alloc size (init_alloc (some p) P).2 =
      (some p, ((init_alloc (some p) P).2.fill 0 size true).setEntry k ⟨p, size, true⟩) := by
  have hfree : FreeAt (init_alloc (some p) P).2.bit_stat size 0 := ⟨by omega, fun _ _ _ => rfl⟩
  rcases alloc_first (Sized.init p P) hsize hmul with ⟨-, hnone⟩ | ⟨j, k, -, hfirst, -, hout⟩
  · exact absurd hfree (hnone 0)
  · obtain rfl : j = 0 := by
      by_contra hj
      exact hfirst 0 (Nat.pos_of_ne_zero hj) hfree
    have hstart : (init_alloc (some p) P).2.page_start = p := rfl
    simp only [hstart, Nat.cast_zero, zero_add, Nat.add_zero] at hout
    exact ⟨k, hout⟩

/-- There is room behind a first block of 8 bytes. -/
theorem freeAt_second :
    FreeAt (alloc 8 (init_alloc (some PAGESIZE) {}).2).2.bit_stat 8 8 := by
  obtain ⟨k, h₁⟩ := alloc_init PAGESIZE {} (by decide : (0 : ℤ) < 8) (by decide) (by decide)
  rw [h₁]
  refine ⟨by decide, fun b hb _ => ?_⟩
  change (if (0 : ℤ) ≤ b ∧ b < 8 then true else false) = false
  rw [if_neg (by omega)]

/-- In every reachable state, releasing some of the blocks in two different orders leaves the same
bytes marked and the same blocks in the table, and all later calls return the same. After all
blocks have been released, `alloc` of a whole page returns its start. -/
theorem release_order {P : State} (h : Reachable P) {L L' : List ℕ} (hL : ∀ a ∈ L, Live P a)
    (hnd : L.Nodup) (hperm : L.Perm L') :
    (deallocs L P).bit_stat = (deallocs L' P).bit_stat ∧
    blocks (deallocs L P) = blocks (deallocs L' P) ∧
    (∀ ops, results ops (deallocs L P) = results ops (deallocs L' P)) ∧
    ((∀ a, Live P a → a ∈ L) → (alloc PAGESIZE (deallocs L P)).1 = some P.page_start) := by
  have hs := sized_of_reachable h
  have hp := page_start_ne_zero h
  have heq := hs.deallocs_perm hp hperm hL hnd
  obtain ⟨hs', hstart, hlive⟩ := hs.deallocs hp hL hnd
  refine ⟨by rw [heq], by rw [heq], fun ops => by rw [heq], fun hall => ?_⟩
  rw [← hstart]
  exact hs'.alloc_page fun a ha => ((hlive a).mp ha).2 (hall a ((hlive a).mp ha).1)

/-- Two blocks, released in either order. -/
theorem release_order_two : ∃ (P : State) (a b : ℕ), Reachable P ∧ Live P a ∧ Live P b ∧ a ≠ b ∧
    blocks (deallocs [a, b] P) = blocks (deallocs [b, a] P) := by
  have hr₀ : Reachable (init_alloc (some PAGESIZE) {}).2 := .init (by decide) {}
  have hr₁ := hr₀.alloc (by decide : (0 : ℤ) < 8) (by decide)
  have hr₂ := hr₁.alloc (by decide : (0 : ℤ) < 8) (by decide)
  have hs₀ := sized_of_reachable hr₀
  have hs₁ := sized_of_reachable hr₁
  obtain ⟨k, h₁⟩ := alloc_init PAGESIZE {} (by decide : (0 : ℤ) < 8) (by decide) (by decide)
  obtain ⟨b, hb⟩ := hs₁.exists_alloc (by decide) (by decide) freeAt_second
  obtain ⟨-, hm₁⟩ := hs₀.mem_blocks_alloc (by decide) (by decide) (congrArg Prod.fst h₁)
  obtain ⟨hnot, hm₂⟩ := hs₁.mem_blocks_alloc (by decide) (by decide) hb
  have hlive₁ := live_iff.mpr ⟨8, (hm₁ _).mpr (Or.inl rfl)⟩
  have ha := live_iff.mpr ⟨8, (hm₂ _).mpr (Or.inr ((hm₁ _).mpr (Or.inl rfl)))⟩
  have hb := live_iff.mpr ⟨8, (hm₂ _).mpr (Or.inl rfl)⟩
  have hne : PAGESIZE ≠ b := fun e => hnot (e ▸ hlive₁)
  refine ⟨_, _, b, hr₂, ha, hb, hne, (release_order hr₂ (fun c hc => ?_) ?_ ?_).2.1⟩
  · rcases List.mem_pair.mp hc with rfl | rfl
    · exact ha
    · exact hb
  · simpa using hne
  · exact List.Perm.swap _ _ _

/-! ## The blocks a caller holds -/

/-- The blocks that a caller holds after a call, with the sizes it asked for. -/
def Op.hold (op : Op) (P : State) (L : List (ℕ × ℤ)) : List (ℕ × ℤ) :=
  match op with
  | .alloc size => (Alloc.alloc size P).1.elim L fun a => (a, size) :: L
  | .dealloc a => L.filter fun x => x.1 ≠ a

/-- The states after a successful `init_alloc` and a sequence of any calls of which each meets
`C`, with the blocks that have been returned and not released. -/
inductive Run (C : State → Op → Prop) : State → List (ℕ × ℤ) → Prop
  | init {p : ℕ} (hp : p ≠ 0) (P : State) : Run C (init_alloc (some p) P).2 []
  | step {P : State} {L : List (ℕ × ℤ)} {op : Op} (h : Run C P L) (hc : C P op) :
      Run C (op.run P) (op.hold P L)

/-- The blocks `L` have different addresses, and releasing one of them clears its bytes and takes
it, and nothing else, out of the table. -/
structure Distinct (P : State) (L : List (ℕ × ℤ)) : Prop where
  addresses : (L.map Prod.fst).Nodup
  bytes : ∀ a n, (a, n) ∈ L → ∀ b : ℤ, (dealloc a P).bit_stat b =
    if (a : ℤ) - P.page_start ≤ b ∧ b < a - P.page_start + n then false else P.bit_stat b
  others : ∀ a n, (a, n) ∈ L → blocks (dealloc a P) = blocks P \ {(a, n)}

/-- No request for 0 or fewer bytes is granted: where `size` is a multiple of `MINALLOC` and not
positive, every byte of the page is in use. -/
def Proper (P : State) : Op → Prop
  | .alloc size => size.tmod MINALLOC = 0 → size ≤ 0 →
      ∀ b ∈ Finset.Ico (0 : ℤ) PAGESIZE, P.bit_stat b = true
  | .dealloc _ => True

/-- In a full page nothing is found. -/
theorem allocLoop_full {P : State} {size : ℤ}
    (hfull : ∀ b ∈ Finset.Ico (0 : ℤ) PAGESIZE, P.bit_stat b = true) (i : ℕ) :
    allocLoop size P i = (none, P) := by
  fun_induction allocLoop size P i with
  | case1 i hlt hbit ih => exact ih
  | case2 i hlt hbit | case3 i hlt hbit | case4 i hlt hbit =>
    exact absurd (hfull i (Finset.mem_Ico.mpr (by omega))) hbit
  | case5 i hge => rfl

/-- The blocks the caller holds are those in the table, each with an address of its own. -/
structure Held (P : State) (L : List (ℕ × ℤ)) : Prop where
  sized : Sized P
  start : P.page_start ≠ 0
  mem : ∀ x, x ∈ L ↔ x ∈ blocks P
  nodup : (L.map Prod.fst).Nodup

namespace Held

variable {P : State} {L : List (ℕ × ℤ)}

/-- Nothing is held, and nothing is in the table. -/
theorem init {p : ℕ} (hp : p ≠ 0) (P : State) : Held (init_alloc (some p) P).2 [] := by
  refine ⟨Sized.init p P, hp, fun x => ?_, List.nodup_nil⟩
  refine iff_of_false List.not_mem_nil ?_
  rintro ⟨k, hk⟩
  exact Bool.false_ne_true (congrArg MemInfo.alloc_or_not hk)

theorem live_of_mem (h : Held P L) {a : ℕ} {n : ℤ} (hx : (a, n) ∈ L) : Live P a :=
  live_iff.mpr ⟨n, (h.mem _).mp hx⟩

theorem alloc (h : Held P L) {size : ℤ} (hc : Proper P (.alloc size)) :
    Held (Alloc.alloc size P).2 ((Op.alloc size).hold P L) := by
  by_cases htmod : size.tmod MINALLOC = 0
  swap
  · have hno : Alloc.alloc size P = (none, P) := if_pos htmod
    simp only [Op.hold, hno]
    exact h
  by_cases hsize : 0 < size
  swap
  · have hno : Alloc.alloc size P = (none, P) := by
      rw [Alloc.alloc, if_neg (not_not_intro htmod)]
      exact allocLoop_full (hc htmod (not_lt.mp hsize)) 0
    simp only [Op.hold, hno]
    exact h
  have hmul : size % MINALLOC = 0 := by
    rwa [Int.tmod_eq_emod_of_nonneg (by omega)] at htmod
  cases ha : (Alloc.alloc size P).1 with
  | none =>
    rcases alloc_first h.sized hsize hmul with ⟨hout, -⟩ | ⟨j, k, -, -, -, hout⟩
    · simp only [Op.hold, hout]
      exact h
    · rw [hout] at ha
      cases ha
  | some a =>
    obtain ⟨hnot, hmem⟩ := h.sized.mem_blocks_alloc hsize hmul ha
    simp only [Op.hold, ha, Option.elim_some]
    refine ⟨h.sized.alloc hsize hmul, ?_, fun x => ?_, ?_⟩
    · rw [h.sized.alloc_page_start hsize hmul]
      exact h.start
    · rw [List.mem_cons, hmem, h.mem]
    · rw [List.map_cons, List.nodup_cons]
      refine ⟨fun hm => ?_, h.nodup⟩
      obtain ⟨⟨c, n⟩, hx, rfl⟩ := List.mem_map.mp hm
      exact hnot (h.live_of_mem hx)

theorem dealloc (h : Held P L) (a : ℕ) :
    Held (Alloc.dealloc a P) ((Op.dealloc a).hold P L) := by
  have hstart : (Alloc.dealloc a P).page_start ≠ 0 := by
    rw [dealloc_page_start]
    exact h.start
  refine ⟨h.sized.dealloc a, hstart, fun x => ?_, ?_⟩
  · rw [Op.hold, List.mem_filter, h.mem]
    by_cases ha : Live P a
    · rw [h.sized.mem_blocks_dealloc h.start ha, decide_eq_true_iff]
    · rw [h.sized.dealloc_of_not_live ha, decide_eq_true_iff]
      refine and_iff_left_of_imp fun hx e => ha (live_iff.mpr ⟨x.2, ?_⟩)
      rwa [← e]
  · exact (List.Nodup.sublist ((List.filter_sublist).map _) h.nodup)

theorem distinct (h : Held P L) : Distinct P L := by
  refine ⟨h.nodup, fun a n hx b => ?_, fun a n hx => ?_⟩
  · obtain ⟨k, hk⟩ := (h.mem _).mp hx
    have hd := h.sized.dealloc_eq h.start (k := k) (by rw [hk])
    simp only [hk] at hd
    rw [hd]
    rfl
  · ext x
    rw [h.sized.mem_blocks_dealloc h.start (h.live_of_mem hx), Set.mem_sdiff,
      Set.mem_singleton_iff]
    refine and_congr_right fun hx' => not_congr ⟨fun e => ?_, fun e => by rw [e]⟩
    have hinj := List.inj_on_of_nodup_map h.nodup ((h.mem x).mpr hx') hx
    exact hinj e

end Held

/-- In every sequence of calls in which no request for 0 or fewer bytes is granted, the blocks
that the caller holds have different addresses, and releasing one releases that block. -/
theorem live_distinct {P : State} {L : List (ℕ × ℤ)} (h : Run Proper P L) : Distinct P L := by
  have hheld : Held P L := by
    induction h with
    | @init p hp P => exact .init hp P
    | @step P L op _ hc ih =>
      cases op with
      | alloc size => exact ih.alloc hc
      | dealloc a => exact ih.dealloc a
  exact hheld.distinct

/-- Two blocks. -/
theorem live_distinct_two : ∃ (P : State) (L : List (ℕ × ℤ)), Run Proper P L ∧ L.length = 2 ∧
    Distinct P L := by
  have hr : Run Proper (init_alloc (some PAGESIZE) {}).2 [] := .init (by decide) {}
  have hr₁ := @Run.step Proper _ _ (.alloc 8) hr fun _ h => absurd h (by decide)
  have hr₂ := @Run.step Proper _ _ (.alloc 8) hr₁ fun _ h => absurd h (by decide)
  obtain ⟨k, h₁⟩ := alloc_init PAGESIZE {} (by decide : (0 : ℤ) < 8) (by decide) (by decide)
  obtain ⟨b, hb⟩ := ((Sized.init PAGESIZE {}).alloc (by decide) (by decide)).exists_alloc
    (by decide) (by decide) freeAt_second
  refine ⟨_, _, hr₂, ?_, live_distinct hr₂⟩
  simp only [Op.hold, Op.run, hb, Option.elim_some, List.length_cons]
  rw [h₁]
  rfl

/-- The loop ends at the first byte of the page if it is free and starts a run that is long
enough. -/
theorem allocLoop_zero {P : State} {size : ℤ} {k : Fin (PAGESIZE / MINALLOC)}
    (hbit : P.bit_stat 0 = false) (hroom : size ≤ runEnd P.bit_stat 1 + 1)
    (hk : P.freeEntry = some k) : (allocLoop size P 0).1 = some P.page_start ∧
      (allocLoop size P 0).2 = (P.fill 0 size true).setEntry k ⟨P.page_start, size, true⟩ := by
  unfold allocLoop
  rw [dif_pos (by decide), Nat.cast_zero, hbit, if_neg Bool.false_ne_true]
  simp only [hk, sub_zero, zero_add, Nat.add_zero, ge_iff_le, hroom, if_true, and_self]

/-- In a page without marked bytes every run goes to the end. -/
theorem runEnd_clear {bit_stat : ℤ → Bool} (hclear : ∀ b, bit_stat b = false) :
    runEnd bit_stat 1 + 1 = PAGESIZE := by
  obtain ⟨-, -, -, hstop⟩ := @runEnd_spec bit_stat 1 (by decide) (by decide)
  refine hstop.resolve_right fun h => ?_
  rw [hclear] at h
  exact Bool.false_ne_true h

/-- A block of no bytes is returned, and then a block of 8 bytes at the same address. -/
theorem live_not_distinct : ∃ (P : State) (L : List (ℕ × ℤ)), Run (fun _ _ => True) P L ∧
    ¬Distinct P L := by
  set P₀ : State := (init_alloc (some PAGESIZE) {}).2 with hP₀
  have hr : Run (fun _ _ => True) P₀ [] := .init (by decide) {}
  have hclear : ∀ b, P₀.bit_stat b = false := fun _ => rfl
  obtain ⟨k, hk⟩ := (Sized.init PAGESIZE {}).exists_freeEntry (b := 0)
    (Finset.mem_Ico.mpr (by decide)) rfl
  have hend := runEnd_clear hclear
  obtain ⟨ha₁, hs₁⟩ := @allocLoop_zero P₀ 0 k (hclear 0) (by omega) hk
  -- the table has a second entry, and still no byte is marked
  set P₁ := (allocLoop 0 P₀ 0).2 with hP₁
  have hclear₁ : ∀ b, P₁.bit_stat b = false := fun b => by
    rw [hs₁, PageInfo.fill_of_le (le_refl 0)]
    rfl
  have htable : ∀ l, l ≠ k → P₁.table l = {} := fun l hl => by
    rw [hs₁, PageInfo.setEntry_of_ne hl]
    rfl
  obtain ⟨k₁, hk₁⟩ : ∃ k₁, P₁.freeEntry = some k₁ := by
    cases hf : P₁.freeEntry with
    | some k₁ => exact ⟨k₁, rfl⟩
    | none =>
      have : Nontrivial (Fin (PAGESIZE / MINALLOC)) := Fin.nontrivial_iff_two_le.mpr (by decide)
      obtain ⟨l, hl⟩ := exists_ne k
      have hused := PageInfo.freeEntry_none hf l
      rw [htable l hl] at hused
      exact absurd hused Bool.false_ne_true
  have hend₁ := runEnd_clear hclear₁
  have hroom : (8 : ℤ) ≤ runEnd P₁.bit_stat 1 + 1 := by
    simp only [PAGESIZE] at hend₁
    omega
  obtain ⟨ha₂, -⟩ := allocLoop_zero (hclear₁ 0) hroom hk₁
  have hstart : P₁.page_start = P₀.page_start := by
    rw [hs₁]
    rfl
  have h₀ : alloc 0 P₀ = allocLoop 0 P₀ 0 := if_neg (by decide)
  have h₁ : alloc 8 P₁ = allocLoop 8 P₁ 0 := if_neg (by decide)
  have hr₁ := @Run.step _ _ _ (.alloc 0) hr trivial
  have hr₂ := @Run.step _ _ _ (.alloc 8) hr₁ trivial
  refine ⟨_, _, hr₂, fun hd => ?_⟩
  have hnd := hd.addresses
  simp only [Op.hold, Op.run, h₀, ha₁, ← hP₁, h₁, ha₂, hstart, Option.elim_some, List.map_cons,
    List.nodup_cons, List.mem_cons, true_or, not_true_eq_false, false_and] at hnd

end OsLabs.Malloc.Alloc
