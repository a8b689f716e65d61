import OsLabs.Himzu.Vm
import OsLabs.Lib.Simulation

/-!
# Shared frames in the other copy-on-write tree

The entries of all processes of the tree `Himzu`, page by page. `kfree` never sees what `fork` has
counted: it frees every frame that it is given, and the handler copies every frame that has ever
been shared.

* `Ok`: the free list holds the frames that no entry maps and the kernel does not hold;
* `accounted_iff_clean`: that is so along a run exactly if only frames that nobody else maps are
  freed, and only frames that somebody else maps are copied;
* `freed_while_mapped`: `fork`, and the child exits.
-/

namespace OsLabs.Himzu

open Xv6 StateError

/-- The entries `ι` below `KERNBASE` in the directories of the processes, and the frames that the
kernel holds itself: directories, page tables, stacks. -/
structure State (ι : Type) where
  phys : Phys Kmem
  pte : ι → Pte := fun _ => Pte.zero
  held : Finset ℕ := ∅

/-- What happens to the pages. The flag says whether the directory needs a page table. -/
inductive Op (ι : Type)
  /-- `fork` copies the entry `i` to `j`. -/
  | copy (i j : ι) (table : Bool)
  /-- A write fault. -/
  | fault (i : ι)
  /-- `sbrk` allocates a page. -/
  | alloc (i : ι) (table : Bool)
  /-- `sbrk`, `wait` or a `fork` that fails frees a page. -/
  | free (i : ι)
  /-- The kernel gets a frame. -/
  | take
  /-- It gives one back. -/
  | give (f : ℕ)

variable {ι : Type} [DecidableEq ι]

/-- The steps. A run ends in a panic, where the handler follows a null pointer, and where `copyuvm`
has shared a page and finds no frame for the page table: it calls `kfree` with a pointer that it has
not set for this page. -/
inductive Step [Layout] (s : State ι) : Option (Op ι) → State ι → Prop
  | copy {i j : ι} {table : Bool} {e e' : Pte} {ts : List ℕ} {t : Phys Kmem}
      (hP : (s.pte i).P = true) (hj : (s.pte j).P = false)
      (hr : copyPage table (s.pte i) s.phys = .ok (some (e, e', ts)) t) :
      Step s (some (.copy i j table))
        ⟨t, Function.update (Function.update s.pte i e) j e', s.held ∪ ts.toFinset⟩
  | bad {i j : ι} {table : Bool} {t : Phys Kmem} (hP : (s.pte i).P = true)
      (hj : (s.pte j).P = false) (hr : copyPage table (s.pte i) s.phys = .ok none t) :
      Step s (some (.copy i j table)) { s with phys := t }
  | fault {i : ι} {r : Bool} {e : Pte} {t : Phys Kmem} (hW : (s.pte i).W = false)
      (hr : handle_T_PGFLT_COW (s.pte i) s.phys = .ok (r, e) t) :
      Step s (some (.fault i)) { s with phys := t, pte := Function.update s.pte i e }
  | alloc {i : ι} {table : Bool} {ts : List ℕ} {e : Option Pte} {t : Phys Kmem}
      (hP : (s.pte i).P = false) (hr : allocPage table s.phys = .ok (ts, e) t) :
      Step s (some (.alloc i table))
        ⟨t, e.elim s.pte (Function.update s.pte i), s.held ∪ ts.toFinset⟩
  | free {i : ι} {t : Phys Kmem} (hP : (s.pte i).P = true)
      (hr : freePage (s.pte i) s.phys = .ok () t) :
      Step s (some (.free i)) { s with phys := t, pte := Function.update s.pte i Pte.zero }
  | take {f : Option ℕ} {t : Phys Kmem} (hr : kalloc s.phys = .ok f t) :
      Step s (some .take) { s with phys := t, held := s.held ∪ f.toFinset }
  | give {f : ℕ} {t : Phys Kmem} (hf : f ∈ s.held) (hr : kfree f s.phys = .ok () t) :
      Step s (some (.give f)) { s with phys := t, held := s.held.erase f }

/-! ## The frames -/

/-- The entry maps the frame. -/
def Maps (e : Pte) (f : ℕ) : Prop := e.P = true ∧ e.ppn = f

omit [DecidableEq ι] in
/-- Some process maps the frame, or the kernel holds it. -/
def State.used (s : State ι) (f : ℕ) : Prop := (∃ i, Maps (s.pte i) f) ∨ f ∈ s.held

/-- The free list holds the frames of `dom` that no entry maps and the kernel does not hold. -/
def Accounted (dom : ℕ → Prop) (s : State ι) : Prop :=
  ∀ f, dom f → (f ∈ s.phys.kmem.freelist ↔ ¬s.used f)

/-- An entry that is not present is 0. -/
def Absent (e : Pte) : Prop := e.P = false → e.ppn = 0

/-- The free list and the counts of the allocator agree with the entries. The frames that the kernel
holds are not mapped. -/
structure Ok [Layout] (dom : ℕ → Prop) (s : State ι) : Prop where
  kmem : Kmem.Ok dom s.phys.kmem
  range : ∀ f, dom f → InRange f
  sub : ∀ f, s.used f → dom f
  apart : ∀ f, (∃ i, Maps (s.pte i) f) → f ∉ s.held
  absent : ∀ i, Absent (s.pte i)
  free : Accounted dom s

section Frames

variable [Layout] {dom : ℕ → Prop} {s s' : State ι} {i j : ι} {e e' : Pte} {t : Phys Kmem} {f : ℕ}
variable {op : Op ι} {p : ι → Pte} {r : Finset ℕ} {m n : List ℕ}

omit [DecidableEq ι] in
/-- A frame that is mapped or held is not free. -/
theorem Ok.not_free (h : Ok dom s) (hu : s.used f) : f ∉ s.phys.kmem.freelist :=
  fun hf => (h.free f (h.sub f hu)).mp hf hu

omit [DecidableEq ι] in
/-- A frame from the free list was neither mapped nor held. -/
theorem Ok.not_used (h : Ok dom s) (hf : f ∈ s.phys.kmem.freelist) : ¬s.used f :=
  fun hu => h.not_free hu hf

omit [DecidableEq ι] in
/-- Only a present entry has a frame that is shared. -/
theorem Ok.present (h : Ok dom s) (hgo : 1 < s.phys.kmem.refs_count (s.pte i).ppn) :
    (s.pte i).P = true := by
  by_contra hP
  rw [h.absent i (Bool.eq_false_iff.mpr hP), h.kmem.null] at hgo
  exact absurd hgo (by decide)

omit [DecidableEq ι] in
/-- The frames `m` come from the free list and are mapped then, the frames `n` are held. -/
theorem Ok.enter (h : Ok dom s) (hk : Kmem.Ok dom t.kmem)
    (hfree : s.phys.kmem.freelist = m ++ n ++ t.kmem.freelist)
    (hp : ∀ g, (∃ i, Maps (p i) g) ↔ (∃ i, Maps (s.pte i) g) ∨ g ∈ m)
    (hr : ∀ g, g ∈ r ↔ g ∈ s.held ∨ g ∈ n) (ha : ∀ i, Absent (p i)) : Ok dom ⟨t, p, r⟩ := by
  have hnd := h.kmem.nodup
  rw [hfree, List.nodup_append', List.nodup_append'] at hnd
  obtain ⟨⟨-, -, hdisj⟩, -, hnew⟩ := hnd
  have hnewm : ∀ g ∈ m, ¬s.used g := fun g hg => h.not_used (by rw [hfree]; simp [hg])
  have hnewn : ∀ g ∈ n, ¬s.used g := fun g hg => h.not_used (by rw [hfree]; simp [hg])
  have hused : ∀ g, State.used ⟨t, p, r⟩ g ↔ s.used g ∨ g ∈ m ++ n := by
    intro g
    rw [State.used, hp, hr, State.used, List.mem_append, or_or_or_comm]
  refine ⟨hk, h.range, fun g hg => ?_, fun g hg hm => ?_, ha, fun g hg => ?_⟩
  · rcases (hused g).mp hg with hg | hg
    · exact h.sub g hg
    · exact h.kmem.sub g (by rw [hfree]; exact List.mem_append_left _ hg)
  · rcases (hp g).mp hg, (hr g).mp hm with ⟨hg | hg, hm | hm⟩
    · exact h.apart g hg hm
    · exact hnewn g hm (Or.inl hg)
    · exact hnewm g hg (Or.inr hm)
    · exact hdisj hg hm
  · have hold := h.free g hg
    rw [hfree, List.mem_append] at hold
    rw [hused, not_or, ← hold]
    constructor
    · exact fun hm => ⟨Or.inr hm, fun hn => hnew hn hm⟩
    · exact fun ⟨hm, hn⟩ => hm.resolve_left hn

omit [DecidableEq ι] in
/-- A frame goes out of use and on the free list. -/
theorem Ok.push (h : Ok dom s) (hk : Kmem.Ok dom t.kmem)
    (hfree : t.kmem.freelist = f :: s.phys.kmem.freelist)
    (hused : ∀ g, State.used ⟨t, p, r⟩ g ↔ s.used g ∧ g ≠ f)
    (hap : ∀ g, (∃ i, Maps (p i) g) → g ∉ r) (ha : ∀ i, Absent (p i)) : Ok dom ⟨t, p, r⟩ := by
  refine ⟨hk, h.range, fun g hg => h.sub g ((hused g).mp hg).1, hap, ha, fun g hg => ?_⟩
  dsimp only
  rw [hused, hfree, List.mem_cons, h.free g hg, not_and_not_right]
  constructor
  · rintro (rfl | hno) hu
    · rfl
    · exact absurd hu hno
  · intro hi
    rcases Classical.em (s.used g) with hu | hu
    · exact Or.inl (hi hu)
    · exact Or.inr hu

/-! ## The entries -/

omit [Layout] in
/-- Entries other than `i` are as they were. -/
theorem maps_update {q : ι → Pte} {g : ℕ} :
    Maps (Function.update q i e j) g ↔ j = i ∧ Maps e g ∨ j ≠ i ∧ Maps (q j) g := by
  rcases eq_or_ne j i with rfl | hj
  · rw [Function.update_self]
    simp
  · rw [Function.update_of_ne hj]
    simp [hj]

omit [Layout] in
theorem absent_update {q : ι → Pte} (hq : ∀ k, Absent (q k)) (he : Absent e) (k : ι) :
    Absent (Function.update q i e k) := by
  rcases eq_or_ne k i with rfl | hk
  · rwa [Function.update_self]
  · rw [Function.update_of_ne hk]
    exact hq k

omit [DecidableEq ι] [Layout] in
theorem Absent.of_present (h : e.P = true) : Absent e := fun hP => by
  rw [h] at hP
  cases hP

omit [Layout] in
/-- An entry keeps its frame. -/
theorem maps_update_same {g : ℕ} (hP : e.P = (s.pte i).P) (hf : e.ppn = (s.pte i).ppn) :
    Maps (Function.update s.pte i e j) g ↔ Maps (s.pte j) g := by
  rw [maps_update]
  rcases eq_or_ne j i with rfl | hne
  · simp [Maps, hP, hf]
  · simp [hne]

omit [Layout] in
/-- An entry is filled. -/
theorem exists_maps_update {q : ι → Pte} (hj : (q j).P = false) (he : e.P = true) (g : ℕ) :
    (∃ k, Maps (Function.update q j e k) g) ↔ (∃ k, Maps (q k) g) ∨ g = e.ppn := by
  constructor
  · rintro ⟨k, hk⟩
    rcases maps_update.mp hk with ⟨-, hm⟩ | ⟨-, hm⟩
    · exact Or.inr hm.2.symm
    · exact Or.inl ⟨k, hm⟩
  · rintro (⟨k, hk⟩ | rfl)
    · have hne : k ≠ j := by
        rintro rfl
        rw [hk.1] at hj
        cases hj
      exact ⟨k, maps_update.mpr (Or.inr ⟨hne, hk⟩)⟩
    · exact ⟨j, maps_update.mpr (Or.inl ⟨rfl, he, rfl⟩)⟩

omit [Layout] in
/-- An entry gets another frame, while its own stays mapped by the entry `j`. -/
theorem exists_maps_replace (hj : j ≠ i) (hm : Maps (s.pte j) (s.pte i).ppn) (he : e.P = true)
    (g : ℕ) :
    (∃ k, Maps (Function.update s.pte i e k) g) ↔ (∃ k, Maps (s.pte k) g) ∨ g = e.ppn := by
  constructor
  · rintro ⟨k, hk⟩
    rcases maps_update.mp hk with ⟨-, hm⟩ | ⟨-, hm⟩
    · exact Or.inr hm.2.symm
    · exact Or.inl ⟨k, hm⟩
  · rintro (⟨k, hk⟩ | rfl)
    · rcases eq_or_ne k i with rfl | hne
      · exact ⟨j, maps_update.mpr (Or.inr ⟨hj, hk.2 ▸ hm⟩)⟩
      · exact ⟨k, maps_update.mpr (Or.inr ⟨hne, hk⟩)⟩
    · exact ⟨i, maps_update.mpr (Or.inl ⟨rfl, he, rfl⟩)⟩

omit [Layout] in
/-- An entry is cleared whose frame no other entry maps. -/
theorem exists_maps_clear (hno : ∀ j, j ≠ i → ¬Maps (s.pte j) (s.pte i).ppn) (g : ℕ) :
    (∃ k, Maps (Function.update s.pte i Pte.zero k) g) ↔
      (∃ k, Maps (s.pte k) g) ∧ g ≠ (s.pte i).ppn := by
  constructor
  · rintro ⟨k, hk⟩
    rcases maps_update.mp hk with ⟨-, hm⟩ | ⟨hne, hm⟩
    · cases hm.1
    · exact ⟨⟨k, hm⟩, fun e => hno k hne (e ▸ hm)⟩
  · rintro ⟨⟨k, hk⟩, hne⟩
    refine ⟨k, maps_update.mpr (Or.inr ⟨?_, hk⟩)⟩
    rintro rfl
    exact hne hk.2.symm

/-! ## The steps -/

/-- A frame that is freed for one entry must not be mapped by another; one that the handler copies
must be. -/
def Clean (s : State ι) (o : Option (Op ι)) (_ : State ι) : Prop :=
  match o with
  | some (.free i) => ∀ j, j ≠ i → ¬Maps (s.pte j) (s.pte i).ppn
  | some (.fault i) => 1 < s.phys.kmem.refs_count (s.pte i).ppn ∧ s.phys.kmem.freelist ≠ [] →
      ∃ j, j ≠ i ∧ Maps (s.pte j) (s.pte i).ppn
  | _ => True

omit [DecidableEq ι] in
/-- What frees the page of an entry puts its frame on the free list. -/
theorem Ok.freePage (h : Ok dom s) (hP : (s.pte i).P = true)
    (hr : freePage (s.pte i) s.phys = .ok () t) :
    Kmem.Ok dom t.kmem ∧ t.kmem.freelist = (s.pte i).ppn :: s.phys.kmem.freelist := by
  have hu : s.used (s.pte i).ppn := Or.inl ⟨i, hP, rfl⟩
  have hd := h.sub _ hu
  have hspec := of_ok (freePage_spec h.kmem hd (h.range _ hd) (h.not_free hu)) hr
  exact hspec

/-- Clean steps keep the accounts. -/
theorem Ok.step (h : Ok dom s) (hs : Step s (some op) s') (hc : Clean s (some op) s') :
    Ok dom s' := by
  cases hs with
  | @copy i j table e₁ e₂ ts t hP hj hr =>
    have h0 : (s.pte i).ppn ≠ 0 := (h.range _ (h.sub _ (Or.inl ⟨i, hP, rfl⟩))).ne_zero
    obtain ⟨hk, ⟨hP₁, hf₁⟩, hP₂, hfree⟩ := of_ok (copyPage_spec h.kmem h.range h0) hr
    have hne : j ≠ i := by
      rintro rfl
      rw [hP] at hj
      cases hj
    have hj' : (Function.update s.pte i e₁ j).P = false := by rwa [Function.update_of_ne hne]
    have hmaps : ∀ g, (∃ k, Maps (Function.update (Function.update s.pte i e₁) j e₂ k) g) ↔
        (∃ k, Maps (s.pte k) g) ∨ g = e₂.ppn := fun g =>
      (exists_maps_update hj' hP₂ g).trans (or_congr_left
        (exists_congr fun k => maps_update_same hP₁ hf₁))
    have hab : ∀ k, Absent (Function.update (Function.update s.pte i e₁) j e₂ k) :=
      absent_update (absent_update h.absent (Absent.of_present (hP₁.trans hP)))
        (Absent.of_present hP₂)
    rcases hfree with ⟨-, -, hf₂, hfree⟩ | ⟨-, hfree⟩
    · -- the child maps a frame that the parent maps
      refine h.enter (m := []) hk hfree (fun g => ?_) (fun g => by simp) hab
      rw [hmaps, or_congr_right (iff_of_eq (congrArg (g = ·) hf₂))]
      simp only [List.not_mem_nil, or_false, or_iff_left_iff_imp]
      rintro rfl
      exact ⟨i, hP, rfl⟩
    · refine h.enter (m := [e₂.ppn]) hk hfree (fun g => ?_) (fun g => by simp) hab
      rw [hmaps, List.mem_singleton]
  | @bad i j table t hP hj hr =>
    have h0 : (s.pte i).ppn ≠ 0 := (h.range _ (h.sub _ (Or.inl ⟨i, hP, rfl⟩))).ne_zero
    obtain ⟨hk, hfree, -⟩ := of_ok (copyPage_spec h.kmem h.range h0) hr
    exact h.enter (m := []) (n := []) hk hfree.symm (fun g => by simp) (fun g => by simp) h.absent
  | @fault i r e t hW hr =>
    obtain ⟨hk, hhandle⟩ := of_ok (handle_spec h.kmem) hr
    split at hhandle
    · rename_i hgo
      obtain ⟨j, hj, hm⟩ := hc hgo
      obtain ⟨hPe, hfree⟩ := hhandle
      refine h.enter (m := [e.ppn]) (n := []) hk hfree (fun g => ?_) (fun g => by simp)
        (absent_update h.absent (Absent.of_present hPe))
      rw [exists_maps_replace hj hm hPe, List.mem_singleton]
    · obtain ⟨⟨hPe, hf⟩, hfree⟩ := hhandle
      have hab : Absent e := fun hP => hf.trans (h.absent i (hPe ▸ hP))
      refine h.enter (m := []) (n := []) hk hfree.symm (fun g => ?_) (fun g => by simp)
        (absent_update h.absent hab)
      simp only [List.not_mem_nil, or_false]
      exact exists_congr fun k => maps_update_same hPe hf
  | @alloc i table ts e t hP hr =>
    obtain ⟨hk, -, hfree, hPe, -⟩ := of_ok (allocPage_spec h.kmem) hr
    refine h.enter hk hfree (fun g => ?_) (fun g => by simp) fun k => ?_
    · cases e with
      | none => simp
      | some e => simpa using exists_maps_update hP (hPe e rfl).1 g
    · cases e with
      | none => exact h.absent k
      | some e => exact absent_update h.absent (Absent.of_present (hPe e rfl).1) k
  | @free i t hP hr =>
    obtain ⟨hk, hfree⟩ := h.freePage hP hr
    have hmaps := exists_maps_clear hc
    refine h.push hk hfree (fun g => ?_) (fun g hg => h.apart g ((hmaps g).mp hg).1)
      (absent_update h.absent fun _ => rfl)
    rw [State.used, hmaps, State.used, or_and_right]
    refine or_congr Iff.rfl (iff_self_and.mpr fun hm e => ?_)
    exact h.apart _ ⟨i, hP, rfl⟩ (e ▸ hm)
  | @take f t hr =>
    obtain ⟨hk, -, hfree⟩ := of_ok (kalloc_spec h.kmem) hr
    cases f with
    | none =>
      exact h.enter (m := []) (n := []) hk (congrArg Kmem.freelist hfree.2.symm)
        (fun g => by simp) (fun g => by simp) h.absent
    | some f =>
      exact h.enter (m := []) (n := [f]) hk hfree (fun g => by simp)
        (fun g => by simp [or_comm]) h.absent
  | @give f t hf hr =>
    have hu : s.used f := Or.inr hf
    have hd := h.sub f hu
    obtain ⟨hk, -, hfree⟩ := of_ok (kfree_spec h.kmem hd (h.range f hd) (h.not_free hu)) hr
    refine h.push hk hfree (fun g => ?_) (fun g hg hm => ?_) h.absent
    · rw [State.used, State.used, Finset.mem_erase]
      constructor
      · rintro (hk | ⟨hne, hm⟩)
        · exact ⟨Or.inl hk, fun e => h.apart g hk (e ▸ hf)⟩
        · exact ⟨Or.inr hm, hne⟩
      · rintro ⟨hk | hm, hne⟩
        · exact Or.inl hk
        · exact Or.inr ⟨hne, hm⟩
    · exact h.apart g hg (Finset.mem_of_mem_erase hm)

/-- A step that is not clean frees a frame that is in use, or loses one that is not. -/
theorem Ok.not_accounted (h : Ok dom s) (hs : Step s (some op) s') (hc : ¬Clean s (some op) s') :
    ¬Accounted dom s' := by
  intro hacc
  cases hs with
  | copy | bad | alloc | take | give => exact hc trivial
  | @free i t hP hr =>
    obtain ⟨-, hfree⟩ := h.freePage hP hr
    obtain ⟨j, hj⟩ := not_forall.mp hc
    obtain ⟨hne, hm⟩ := Classical.not_imp.mp hj
    have hd := h.sub _ (Or.inl ⟨i, hP, rfl⟩)
    refine (hacc _ hd).mp ?_ (Or.inl ⟨j, maps_update.mpr (Or.inr ⟨hne, not_not.mp hm⟩)⟩)
    dsimp only
    rw [hfree]
    exact List.mem_cons_self
  | @fault i r e t hW hr =>
    obtain ⟨hgo, hno⟩ := Classical.not_imp.mp hc
    have hP := h.present hgo.1
    have hu : s.used (s.pte i).ppn := Or.inl ⟨i, hP, rfl⟩
    obtain ⟨-, hhandle⟩ := of_ok (handle_spec h.kmem) hr
    rw [if_pos hgo] at hhandle
    obtain ⟨-, hfree⟩ := hhandle
    have hhead : e.ppn ∈ s.phys.kmem.freelist := by
      rw [hfree]
      exact List.mem_cons_self
    have hunused : ¬State.used { s with phys := t, pte := Function.update s.pte i e }
        (s.pte i).ppn := by
      rintro (⟨k, hk⟩ | hm)
      · rcases maps_update.mp hk with ⟨-, hm⟩ | ⟨hne, hm⟩
        · exact h.not_used hhead (hm.2 ▸ hu)
        · exact hno ⟨k, hne, hm⟩
      · exact h.apart _ ⟨i, hP, rfl⟩ hm
    have hmem := (hacc _ (h.sub _ hu)).mpr hunused
    exact h.not_free hu (by rw [hfree]; exact List.mem_cons_of_mem _ hmem)

/-- The pages of the processes, from a state in which the accounts are in order. -/
def frames (dom : ℕ → Prop) : Lts (Op ι) (State ι) where
  init := Ok dom
  step := Step

theorem Step.exists_op {o : Option (Op ι)} (h : Step s o s') : ∃ op, o = some op := by
  cases h <;> exact ⟨_, rfl⟩

theorem ok_of_clean {s₀ : State ι} {l : List (Op ι)} (h₀ : (frames dom).init s₀)
    (h : ((frames dom).within Clean).Run s₀ l s) : Ok dom s := by
  induction h with
  | refl => exact h₀
  | step _ hs ih =>
    obtain ⟨op, rfl⟩ := Step.exists_op hs.1
    exact ih.step hs.1 hs.2

/-! ## The first states -/

omit [DecidableEq ι] in
/-- Before `kinit1` no frame is known to the allocator. -/
theorem ok_zeroed (mem : ℕ → Page) :
    Ok (Below firstFrame) ({ phys := { kmem := {}, mem } } : State ι) := by
  rw [Below_firstFrame]
  refine ⟨⟨List.nodup_nil, fun _ hf => ?_, fun _ _ => rfl, fun _ hf => hf.elim, rfl⟩,
    fun _ hf => hf.elim, fun f hf => ?_, fun f hf => ?_, fun _ _ => rfl, fun _ hf => hf.elim⟩
  · cases hf
  · rcases hf with ⟨i, hi⟩ | hf
    · cases hi.1
    · cases hf
  · obtain ⟨i, hi⟩ := hf
    cases hi.1

omit [DecidableEq ι] in
/-- `freerange` puts its frames on the free list. -/
theorem Ok.freerange {m M vstart vend : ℕ} (h : Ok (Below m) s) (hM : M ≤ NFRAMES) (hm : m ≤ M)
    (h0 : firstFrame ≤ m) (hv : PGROUNDUP vstart = frameAddr m) (hvend : vend = frameAddr M) :
    wp (freerange vstart vend) (fun _ t => Ok (Below M) { s with phys := t } ∧ SameShares s.phys t)
      (fun _ _ => False) s.phys := by
  refine wp_post (freerange_spec hM hm h0 hv hvend h.kmem) fun _ t ht => ?_
  obtain ⟨hk, hshare, hfree⟩ := ht
  have hsub : ∀ f, s.used f → Below M f := fun f hf =>
    ⟨(h.sub f hf).1, lt_of_lt_of_le (h.sub f hf).2 hm⟩
  refine ⟨⟨hk, fun f hf => hf.1, hsub, h.apart, h.absent, fun f hf => ?_⟩, hshare⟩
  rw [hfree]
  rcases Nat.lt_or_ge f m with hlt | hge
  · rw [or_iff_left fun hm => absurd hm.1 (Nat.not_le.mpr hlt)]
    exact h.free f ⟨hf.1, hlt⟩
  · have hno : ¬s.used f := fun hu => absurd (h.sub f hu).2 (Nat.not_lt.mpr hge)
    exact iff_of_true (Or.inr ⟨hge, hf.2⟩) hno

/-- The two phases, as `main` calls them. -/
def kinit : M Unit := do
  kinit1 Layout.end_ (P2V INITSTOP)
  kinit2 (P2V INITSTOP) (P2V PHYSTOP)

omit [DecidableEq ι] in
/-- After the initialisation every frame is free, and none is shared. -/
theorem kinit_spec (mem : ℕ → Page) :
    wp kinit (fun _ t => Ok InRange ({ phys := t } : State ι) ∧
      SameShares { kmem := {}, mem } t) (fun _ _ => False) { kmem := {}, mem } := by
  unfold kinit kinit1 kinit2
  rw [wp_bind, wp_bind, wp_modify]
  refine wp_post ((ok_zeroed (ι := ι) mem).freerange EFRAMES_le firstFrame_le (le_refl _)
    PGROUNDUP_end P2V_INITSTOP) fun _ t ht => ?_
  have hkinit2 := ht.1.freerange (le_refl _) EFRAMES_le firstFrame_le PGROUNDUP_INITSTOP P2V_PHYSTOP
  rw [← Below_NFRAMES]
  exact wp_post hkinit2 fun _ u hu => ⟨hu.1, ht.2.trans hu.2⟩

/-- A process allocates a page and forks. -/
theorem exists_forked (mem : ℕ → Page) : ∃ (t : Phys Kmem) (s : State (Fin 2)) (f : ℕ),
    kinit { kmem := {}, mem } = .ok () t ∧ Ok InRange ({ phys := t } : State (Fin 2)) ∧
      ((frames InRange).within Clean).Run { phys := t } [.alloc 0 false, .copy 0 1 false] s ∧
      Ok InRange s ∧ Maps (s.pte 0) f ∧ Maps (s.pte 1) f ∧ (s.pte 0).W = false := by
  obtain ⟨⟨⟩, t₀, hkinit, hok₀, hshare₀⟩ := wp_ok (kinit_spec (ι := Fin 2) mem)
  have hin : InRange firstFrame := inRange_iff.mpr ⟨le_refl _, firstFrame_le.trans_lt (by decide)⟩
  have hmem : firstFrame ∈ t₀.kmem.freelist := by
    refine (hok₀.free _ hin).mpr ?_
    rintro (⟨i, hi⟩ | hf)
    · cases hi.1
    · cases hf
  obtain ⟨⟨ts, r⟩, t₁, halloc, -, hshare₁, -, hent, hnone⟩ :=
    wp_ok (m := allocPage false) (allocPage_spec hok₀.kmem)
  cases r with
  | none =>
    rcases hnone rfl with hf | hf
    · cases hf
    · rw [hf] at hmem
      cases hmem
  | some e =>
    obtain ⟨hP, hU⟩ := hent e rfl
    have hstep₁ := Step.alloc (s := { phys := t₀ }) (i := (0 : Fin 2)) rfl halloc
    have hok₁ := hok₀.step hstep₁ trivial
    have he : InRange e.ppn := hok₁.sub _ (Or.inl ⟨0, hP, rfl⟩)
    have hcount : t₁.kmem.refs_count e.ppn = 0 := by
      have hlt : e.ppn < UPAGES := (inRange_iff.mp he).2.trans (by decide)
      exact (hshare₁ _ hlt).trans (hshare₀ _ hlt)
    obtain ⟨_, t₂, hcopy, e₁, e₂, ts', rfl, ⟨hP₁, hf₁⟩, hW, hP₂, hf₂⟩ :=
      wp_ok (copyPage_share hok₁.kmem hok₁.range he hU hcount.ge)
    have hstep₂ := Step.copy (s := ⟨t₁, Function.update (fun _ => Pte.zero) 0 e, ∅ ∪ ts.toFinset⟩)
      (i := (0 : Fin 2)) (j := 1) hP rfl hcopy
    have hrun := ((Lts.Run.refl (M := (frames InRange).within Clean) _).event
      ⟨hstep₁, trivial⟩).event ⟨hstep₂, trivial⟩
    exact ⟨t₀, _, e.ppn, hkinit, hok₀, hrun, hok₁.step hstep₂ trivial, ⟨hP₁.trans hP, hf₁⟩,
      ⟨hP₂, hf₂⟩, hW⟩

/-! ## Runs -/

/-- The free list holds the unused frames after every step of a run exactly if every step of the run
is clean. -/
theorem accounted_iff_clean {s₀ : State ι} {l : List (Op ι)} (h₀ : (frames dom).init s₀) :
    ((frames dom).within fun _ _ s' => Accounted dom s').Run s₀ l s ↔
      ((frames dom).within Clean).Run s₀ l s := by
  constructor
  · intro h
    induction h with
    | refl => exact .refl s₀
    | step _ hs ih =>
      obtain ⟨op, rfl⟩ := Step.exists_op hs.1
      have hok := ok_of_clean h₀ ih
      exact ih.step ⟨hs.1, by_contra fun hc => hok.not_accounted hs.1 hc hs.2⟩
  · intro h
    induction h with
    | refl => exact .refl s₀
    | step hr hs ih =>
      obtain ⟨op, rfl⟩ := Step.exists_op hs.1
      exact ih.step ⟨hs.1, ((ok_of_clean h₀ hr).step hs.1 hs.2).free⟩

end Frames

/-- The parent writes first, and the child keeps the frame. -/
theorem accounted_iff_clean_forked : ∃ (_ : Layout) (s₀ s : State (Fin 2)),
    (frames InRange).init s₀ ∧
      ((frames InRange).within fun _ _ s' => Accounted InRange s').Run s₀
        [.alloc 0 false, .copy 0 1 false, .fault 0] s := by
  let _ := sampleLayout
  obtain ⟨t, s, f, -, hinit, hrun, hok, h₀, h₁, hW⟩ := exists_forked fun _ => zeroPage
  have hin : InRange (s.pte 0).ppn := hok.range _ (hok.sub _ (Or.inl ⟨0, h₀.1, rfl⟩))
  obtain ⟨⟨r, e⟩, t', hr, -⟩ := wp_ok (wp_mono (handle_spec (e := s.pte 0) hok.kmem)
    (fun _ _ hpost => hpost) fun _ _ hlt => absurd hin.2.le (Nat.not_le.mpr hlt))
  have hclean : ((frames InRange).within Clean).step s (some (.fault 0)) _ :=
    ⟨Step.fault hW hr, fun _ => ⟨1, by decide, h₁.1, h₁.2.trans h₀.2.symm⟩⟩
  exact ⟨_, _, _, hinit, (accounted_iff_clean hinit).mpr (hrun.event hclean)⟩

/-- A process forks, the child exits and is reaped: the frame is free, and the parent still has
it. -/
theorem freed_while_mapped : ∃ (_ : Layout) (t : Phys Kmem) (s : State (Fin 2)) (f : ℕ),
    kinit { kmem := {}, mem := fun _ => zeroPage } = .ok () t ∧
      (frames InRange).init ({ phys := t } : State (Fin 2)) ∧
      (frames InRange).Run { phys := t } [.alloc 0 false, .copy 0 1 false, .free 1] s ∧
      f ∈ s.phys.kmem.freelist ∧ Maps (s.pte 0) f := by
  let _ := sampleLayout
  obtain ⟨t, s, f, hkinit, hinit, hrun, hok, h₀, h₁, -⟩ := exists_forked fun _ => zeroPage
  have hu : s.used (s.pte 1).ppn := Or.inl ⟨1, h₁.1, rfl⟩
  have hd := hok.sub _ hu
  obtain ⟨⟨⟩, t', hr, -, hfree⟩ :=
    wp_ok (freePage_spec hok.kmem hd (hok.range _ hd) (hok.not_free hu))
  refine ⟨_, t, _, f, hkinit, hinit, hrun.of_within.event (Step.free h₁.1 hr), ?_, h₀⟩
  dsimp only
  rw [hfree, h₁.2]
  exact List.mem_cons_self

end OsLabs.Himzu
