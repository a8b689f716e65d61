import OsLabs.Cow.Kalloc
import OsLabs.Xv6.Growing

/-!
# Copy-on-write address spaces

`copyuvm` and the page-fault handler of the copy-on-write tree. `copyuvm` gives the child the
parent's frames and takes the right to write from both; the handler gives a process that writes
a frame of its own, or, when nobody else uses the frame any more, the right to write back.

* `copyuvm_spec`, with the outcomes listed in `CopyEffect`;
* `makeCopy_spec`, with the outcomes listed in `FaultEffect`.
-/

namespace OsLabs.Cow

open Xv6 StateError Ledger

section Code

variable [Layout]

/-- Set `PTE_CoW` and clear `PTE_W` on a writable page. -/
def writeProtect (pgdir : Pgdir) (va : ℕ) : Pgdir :=
  let pte := pgdir.deref va
  if pte.W then
    (pgdir.store va { pte with CoW := true }).store va { pte with CoW := true, W := false }
  else pgdir

/-- The loop of `copyuvm` from the address `i` on, with the directories of the parent and of the
child; the flag is false where the source goes to `bad`. -/
def copyuvmLoop (sz : ℕ) : ℕ → Pgdir → Pgdir → ℕ → K Kmem (Bool × Pgdir × Pgdir)
  | 0, _, _, _ => throw .hang
  | fuel + 1, pgdir, d, i =>
    if i < sz then
      match pgdir.find i with
      | none => throw .copyuvmExist
      | some pte =>
        if !pte.P then throw .copyuvmPresent
        else do
          let pgdir := writeProtect pgdir i
          let pte := pgdir.deref i
          let r ← mappages d i PGSIZE pte.ppn pte.toFlags
          if r.2 then do
            increase_refcount pte.ppn
            copyuvmLoop sz fuel pgdir r.1 (uint (i + PGSIZE))
          else return (false, pgdir, r.1)
    else return (true, pgdir, d)

/-- Given a parent's directory, create a copy of it for a child. -/
def copyuvm (pgdir : Pgdir) (sz : ℕ) : K Kmem (Option Pgdir × Pgdir) := do
  match ← setupkvm with
  | none => return (none, pgdir)
  | some d => do
    let r ← copyuvmLoop sz loopFuel pgdir d 0
    if r.1 then return (some r.2.2, r.2.1)
    else do
      freevm r.2.2
      return (none, r.2.1)

/-- A missing page table counts as a copy-on-write page. -/
def check_CoW_bit_set_or_not (pgdir : Pgdir) (va : ℕ) : Bool :=
  match pgdir.find va with
  | none => true
  | some pte => pte.CoW

/-- The end of the handler: clear `PTE_CoW`, then set `PTE_W`. -/
def grantWrite (pgdir : Pgdir) (va : ℕ) : Pgdir :=
  let pte := pgdir.deref va
  (pgdir.store va { pte with CoW := false }).store va { pte with CoW := false, W := true }

/-- `make_a_copy_of_physical_frame_at_this_va_and_remove_CoW_bit_and_set_W_bit`; the result of
`kalloc` is used unchecked. Where it is null the model stops; the kernel copies to address 0 of the
process. -/
def makeCopy (pgdir : Pgdir) (va : ℕ) : K Kmem Pgdir := do
  match pgdir.find va with
  | none => throw .nullDeref
  | some pte => do
    let pa := pte.ppn
    let n ← get_refcount pa
    if n > 1 then do
      decrease_refcount pa
      match ← kalloc with
      | none => throw .nullDeref
      | some mem => do
        modify fun s => s.fill mem (s.mem pa)
        return grantWrite (pgdir.store va { U := true, P := true, ppn := mem }) va
    else return grantWrite pgdir va

/-- The page-fault branch of `trap`. -/
def pgflt (pgdir : Pgdir) (va : ℕ) : K Kmem (Option Pgdir) :=
  if check_CoW_bit_set_or_not pgdir va then do
    let d ← makeCopy pgdir va
    return some d
  else return none

end Code

/-! ## Write protection -/

/-- The entry after `copyuvm` has seen it. -/
def protect (e : Pte) : Pte := if e.W then { e with CoW := true, W := false } else e

section Protect

variable (e : Pte)

@[simp] theorem protect_P : (protect e).P = e.P := by
  unfold protect
  split <;> rfl

@[simp] theorem protect_U : (protect e).U = e.U := by
  unfold protect
  split <;> rfl

@[simp] theorem protect_LAZY : (protect e).LAZY = e.LAZY := by
  unfold protect
  split <;> rfl

@[simp] theorem protect_ppn : (protect e).ppn = e.ppn := by
  unfold protect
  split <;> rfl

@[simp] theorem protect_W : (protect e).W = false := by
  unfold protect
  split
  · rfl
  · simpa using ‹¬e.W = true›

theorem protect_CoW : (protect e).CoW = (e.W || e.CoW) := by
  unfold protect
  split
  · simp [*]
  · rename_i h
    simp [h]

@[simp] theorem pteHold_protect : Pgdir.pteHold (protect e) = Pgdir.pteHold e := by
  simp [Pgdir.pteHold]

end Protect

/-- `d` is `d₀` with the pages below `n` write protected. The entries replaced on the way are
those of `d₀` and the same with the copy-on-write bit. -/
structure Protected (d₀ d : Pgdir) (n : ℕ) : Prop where
  frame : d.frame = d₀.frame
  pde : ∀ i, (d.pde i).map PTable.frame = (d₀.pde i).map PTable.frame
  ent : ∀ w, d.ent w = if w < n then protect (d₀.ent w) else d₀.ent w
  stale : ∀ t ∈ d.stale, t ∈ d₀.stale ∨ t.1 < n ∧ (d₀.ent t.1).W = true ∧
    (t.2 = d₀.ent t.1 ∨ t.2 = { d₀.ent t.1 with CoW := true })

namespace Protected

variable {d₀ d : Pgdir} {n : ℕ}

theorem refl (d₀ : Pgdir) : Protected d₀ d₀ 0 :=
  ⟨rfl, fun _ => rfl, fun w => by simp, fun _ h => Or.inl h⟩

theorem holds (h : Protected d₀ d n) : d.holds = d₀.holds := by
  have huses : d.uses = d₀.uses := Pgdir.uses_congr fun v _ => by
    rw [h.ent]
    split
    · exact pteHold_protect _
    · rfl
  rw [Pgdir.holds, Pgdir.holds, h.frame, Pgdir.tables_congr h.pde, huses]

theorem has (h : Protected d₀ d n) (i : ℕ) : d.has i ↔ d₀.has i := by
  have := h.pde i
  unfold Pgdir.has
  cases h₁ : d.pde i <;> cases h₂ : d₀.pde i <;> simp_all

/-- One page further. -/
theorem next {v : ℕ} (h : Protected d₀ d v) (hv : v < 2 ^ 20) (hhas : d.has (v / 1024)) :
    Protected d₀ (writeProtect d (v * 4096)) (v + 1) := by
  have hvv : v * 4096 / 4096 = v := by omega
  have hva : v * 4096 < 2 ^ 32 := by omega
  have hhas' : d.has (v * 4096 / 4096 / 1024) := by rwa [hvv]
  have hder : d.deref (v * 4096) = d₀.ent v := by
    rw [Pgdir.deref_of_has hva hhas', hvv, h.ent, if_neg (Nat.lt_irrefl v)]
  unfold writeProtect
  simp only [hder]
  by_cases hW : (d₀.ent v).W = true
  · rw [if_pos hW]
    set e₁ : Pte := { d₀.ent v with CoW := true }
    set e₂ : Pte := { d₀.ent v with CoW := true, W := false } with he₂
    have hhas₁ : (d.store (v * 4096) e₁).has (v * 4096 / 4096 / 1024) := by
      rwa [Pgdir.has_store]
    have hp : protect (d₀.ent v) = e₂ := by rw [protect, if_pos hW]
    refine ⟨?_, fun i => ?_, fun w => ?_, fun t ht => ?_⟩
    · rw [Pgdir.frame_store, Pgdir.frame_store, h.frame]
    · rw [Pgdir.pde_store_frame, Pgdir.pde_store_frame, h.pde]
    · rw [Pgdir.ent_store hva hhas₁, Pgdir.ent_store hva hhas', hvv, h.ent]
      by_cases hw : w = v
      · rw [if_pos hw, if_pos (by omega), hw, hp]
      · have : w < v + 1 ↔ w < v := by omega
        simp only [if_neg hw, this]
    · rw [Pgdir.stale_store hva hhas₁, Pgdir.stale_store hva hhas', Pgdir.ent_store hva hhas',
        if_pos rfl, hvv, List.mem_cons, List.mem_cons] at ht
      rcases ht with rfl | rfl | ht
      · exact Or.inr ⟨Nat.lt_succ_self v, hW, Or.inr rfl⟩
      · refine Or.inr ⟨Nat.lt_succ_self v, hW, Or.inl ?_⟩
        dsimp only
        rw [h.ent, if_neg (Nat.lt_irrefl v)]
      · exact (h.stale t ht).imp_right fun ⟨h₁, h₂⟩ => ⟨Nat.lt_succ_of_lt h₁, h₂⟩
  · rw [if_neg hW]
    refine ⟨h.frame, h.pde, fun w => ?_, fun t ht => ?_⟩
    · rw [h.ent]
      by_cases hw : w = v
      · rw [if_neg (by omega), if_pos (by omega), hw, protect, if_neg hW]
      · have : w < v + 1 ↔ w < v := by omega
        simp only [this]
    · exact (h.stale t ht).imp_right fun ⟨h₁, h₂⟩ => ⟨Nat.lt_succ_of_lt h₁, h₂⟩

end Protected

/-! ## `copyuvm` -/

/-- `c` has the pages of `d` below `n` and no others, and shows nothing of the kernel. -/
structure Child (d c : Pgdir) (n : ℕ) : Prop where
  low : ∀ w < n, c.ent w = d.ent w
  high : ∀ w, n ≤ w → w < UPAGES → c.ent w = Pte.zero
  kernel : c.KernelOk

section Spec

variable [Layout] {r : Ledger ℕ}

/-- What holds when `copyuvm` has come to page `v`: the parent `d₀` has become `d`, and the child
`c₀` has become `c`. -/
structure Sharing (r : Ledger ℕ) (s₀ : Phys Kmem) (d₀ c₀ : Pgdir) (v : ℕ) (s : Phys Kmem)
    (d c : Pgdir) : Prop where
  acct : Balanced InRange s.kmem (r + d₀.holds + c.holds)
  mem : s.mem = s₀.mem
  oom : s.oom = s₀.oom
  parent : Protected d₀ d v
  present : ∀ w < v, (d₀.ent w).P = true
  child : Child d c v
  len : s.free.length + c.numTables = s₀.free.length + c₀.numTables

/-- One page further: the page is protected, mapped in the child and counted. -/
theorem Sharing.next {s₀ s s' : Phys Kmem} {d₀ c₀ d c c₁ : Pgdir} {v : ℕ}
    (h : Sharing r s₀ d₀ c₀ v s d c) (hv : v < UPAGES) (hP : (d₀.ent v).P = true)
    (hhas : d.has (v / 1024)) (hext : c.Ext c₁) (hhas₁ : c₁.has (v / 1024)) {e : Pte}
    (he : e = protect (d₀.ent v))
    (ha : Balanced InRange s'.kmem (r + d₀.holds + excl c.frame + c.uses + c₁.tables +
      shared (d₀.ent v).ppn)) (hm : s'.mem = s.mem) (ho : s'.oom = s.oom)
    (hlen : s'.free.length + c₁.numTables = s.free.length + c.numTables) :
    Sharing r s₀ d₀ c₀ (v + 1) s' (writeProtect d (v * 4096)) (c₁.store (v * 4096) e) := by
  rw [UPAGES_eq] at hv
  have hvv : v * 4096 / 4096 = v := by omega
  have hva : v * 4096 < 2 ^ 32 := by omega
  have hhas' : c₁.has (v * 4096 / 4096 / 1024) := by rwa [hvv]
  have hpar := h.parent.next (by omega) hhas
  have hcv : c.ent v = Pte.zero := h.child.high v (le_refl _) (by rw [UPAGES_eq]; exact hv)
  have hent : ∀ w, (c₁.store (v * 4096) e).ent w = if w = v then e else c.ent w := fun w => by
    rw [Pgdir.ent_store hva hhas', hvv, hext.ent]
  have huse : (c₁.store (v * 4096) e).uses = c.uses + shared (d₀.ent v).ppn := by
    have := Pgdir.uses_store (e := e) (show v * 4096 < KERNBASE by rw [KERNBASE_eq]; omega) hhas'
    rw [hvv, hext.ent, hcv, Pgdir.pteHold_zero, add_zero, hext.uses] at this
    rw [this, he, pteHold_protect, Pgdir.pteHold_of_P hP]
  have hholds : (c₁.store (v * 4096) e).holds =
      excl c.frame + c₁.tables + (c.uses + shared (d₀.ent v).ppn) := by
    rw [Pgdir.holds, huse, Pgdir.tables_store, Pgdir.frame_store, hext.frame]
  refine ⟨?_, hm.trans h.mem, ho.trans h.oom, hpar, fun w hw => ?_, ⟨fun w hw => ?_,
    fun w h₁ h₂ => ?_, h.child.kernel.congr fun w hw => ?_⟩, ?_⟩
  · rw [hholds]
    have : r + d₀.holds + (excl c.frame + c₁.tables + (c.uses + shared (d₀.ent v).ppn)) =
        r + d₀.holds + excl c.frame + c.uses + c₁.tables + shared (d₀.ent v).ppn := by abel
    rwa [this]
  · by_cases hwv : w = v
    · rw [hwv, hP]
    · exact h.present w (by omega)
  · rw [hent, hpar.ent, if_pos hw]
    by_cases hwv : w = v
    · rw [if_pos hwv, he, hwv]
    · rw [if_neg hwv, h.child.low w (by omega), h.parent.ent, if_pos (by omega)]
  · rw [hent, if_neg (by omega)]
    exact h.child.high w (by omega) h₂
  · rw [UPAGES_eq] at hw
    rw [hent, if_neg (by omega)]
  · rw [Pgdir.numTables_store, hlen, h.len]

/-- The loop of `copyuvm` from page `v` on. -/
theorem copyuvmLoop_spec {sz : ℕ} (hsz : sz ≤ KERNBASE) {s₀ : Phys Kmem} {d₀ c₀ : Pgdir} :
    ∀ {fuel v : ℕ} {s : Phys Kmem} {d c : Pgdir}, pages sz - v < fuel → v ≤ pages sz →
    Sharing r s₀ d₀ c₀ v s d c →
    wp (copyuvmLoop sz fuel d c (v * 4096)) (fun res s' =>
      (res.1 = true ∧ Sharing r s₀ d₀ c₀ (pages sz) s' res.2.1 res.2.2) ∨
      (res.1 = false ∧ s'.mem = s₀.mem ∧ s'.oom = true ∧ s₀.free.length ≤ 1024 ∧
        (∃ n, 0 < n ∧ n ≤ pages sz ∧ Protected d₀ res.2.1 n) ∧
        Balanced InRange s'.kmem (r + d₀.holds + res.2.2.holds)))
      (fun e _ => (e = .copyuvmExist ∨ e = .copyuvmPresent) ∧
        ∃ w < pages sz, (d₀.ent w).P = false) s := by
  have hpg := pages_le_UPAGES hsz
  rw [UPAGES_eq] at hpg
  intro fuel
  induction fuel with
  | zero => intro v s d c h; exact absurd h (Nat.not_lt_zero _)
  | succ fuel ih =>
    intro v s d c hfuel hv hS
    have hlt : v * 4096 < sz ↔ v < pages sz := by
      simp only [pages]
      omega
    unfold copyuvmLoop
    by_cases hv' : v < pages sz
    swap
    · obtain rfl : v = pages sz := by omega
      rw [if_neg (by rwa [hlt])]
      exact Or.inl ⟨rfl, hS⟩
    rw [if_pos (hlt.mpr hv')]
    have hup : v < UPAGES := by
      rw [UPAGES_eq]
      omega
    have hdv : d.ent v = d₀.ent v := by rw [hS.parent.ent, if_neg (Nat.lt_irrefl v)]
    by_cases hhas : d.has (v / 1024)
    swap
    · have hnot : ¬d.has (v * 4096 / 4096 / 1024) := by rwa [show v * 4096 / 4096 = v by omega]
      rw [Pgdir.find_of_not_has (by omega) hnot]
      refine ⟨Or.inl rfl, v, hv', ?_⟩
      rw [← hdv, Pgdir.ent_of_not_has hhas]
      rfl
    rw [Pgdir.find_page (by omega) hhas, hdv]
    dsimp only
    by_cases hP : (d₀.ent v).P = true
    swap
    · rw [if_pos (by simpa using hP)]
      exact ⟨Or.inr rfl, v, hv', by simpa using hP⟩
    rw [if_neg (by simpa using hP)]
    have hpar := hS.parent.next (by omega) hhas
    have hder : (writeProtect d (v * 4096)).deref (v * 4096) = protect (d₀.ent v) := by
      have hhas₁ : (writeProtect d (v * 4096)).has (v / 1024) :=
        (hpar.has _).mpr ((hS.parent.has _).mp hhas)
      rw [Pgdir.deref, Pgdir.find_page (by omega) hhas₁, Option.getD_some, hpar.ent,
        if_pos (Nat.lt_succ_self v)]
    rw [hder, protect_ppn]
    simp only [wp_bind]
    have hcv : (c.ent v).P = false := by
      rw [hS.child.high v (le_refl _) hup]
      rfl
    have ha := hS.acct
    have hl : r + d₀.holds + c.holds = r + d₀.holds + excl c.frame + c.uses + c.tables := by
      rw [show c.holds = excl c.frame + c.tables + c.uses from rfl]
      abel
    rw [hl] at ha
    refine wp_mono (mappages_page_spec (κ := Kmem) (by omega) ha hcv) (fun res s₁ h₁ => ?_)
      fun _ _ h => h.elim
    obtain ⟨ha₁, -, hm₁, hok, hbad⟩ := h₁
    obtain ⟨c', ok⟩ := res
    dsimp only at ha₁ hok hbad
    cases ok with
    | true =>
      obtain ⟨ho₁, hlen₁, c₁, hext, hhas₁, -, rfl⟩ := hok rfl
      rw [Pgdir.tables_store] at ha₁
      rw [Pgdir.numTables_store] at hlen₁
      have hshare : ((r + d₀.holds + excl c.frame + c.uses + c₁.tables) (d₀.ent v).ppn).1 ≠ 0 := by
        have h₁ := Pgdir.refs_uses_pos (d := d₀) hup hP
        have h₂ := d₀.uses_snd (d₀.ent v).ppn
        simp only [refs] at h₁
        simp only [Pgdir.holds, Pi.add_apply, Prod.fst_add]
        omega
      simp only [if_true, wp_bind]
      refine wp_mono (increase_refcount_spec ha₁ hshare) (fun _ s₂ h₂ => ?_) fun _ _ h => h.elim
      obtain ⟨ha₂, hm₂, ho₂, hf₂⟩ := h₂
      have hnext : uint (v * 4096 + PGSIZE) = (v + 1) * 4096 := by
        simp only [uint, PGSIZE]
        omega
      have hfree : s₂.free = s₁.free := hf₂
      rw [hnext]
      have he := Pte.flags_ppn (protect (d₀.ent v)) ((protect_P _).trans hP)
      rw [protect_ppn] at he
      rw [← hfree] at hlen₁
      exact ih (by omega) (by omega) (hS.next hup hP hhas hext hhas₁ he ha₂ (hm₂.trans hm₁)
        (ho₂.trans ho₁) hlen₁)
    | false =>
      obtain ⟨rfl, ho₁, hfree, -⟩ := hbad rfl
      have hlen := hS.len
      have hnum := c'.numTables_le_max
      rw [hfree, List.length_nil] at hlen
      simp only [Bool.false_eq_true, if_false, wp_pure]
      exact Or.inr ⟨trivial, hm₁.trans hS.mem, ho₁, by omega, ⟨v + 1, Nat.succ_pos v, hv', hpar⟩,
        by rw [hl]; exact ha₁⟩

/-- What `copyuvm` does to the directory `d₀` of a process of size `sz`. -/
inductive CopyEffect (d₀ : Pgdir) (sz : ℕ) (r : Ledger ℕ) (s : Phys Kmem) :
    Option Pgdir × Pgdir → Phys Kmem → Prop
  /-- The child shares all pages of the parent. -/
  | copied {d c : Pgdir} {s' : Phys Kmem} (hp : Protected d₀ d (pages sz))
      (hP : ∀ w < pages sz, (d₀.ent w).P = true) (hc : Child d c (pages sz))
      (hm : s'.mem = s.mem) (ho : s'.oom = s.oom)
      (hfree : s.free.length ≤ s'.free.length + 1537) : CopyEffect d₀ sz r s (some c, d) s'
  /-- Memory has run out; part of the parent has been protected. -/
  | failed {n : ℕ} {d : Pgdir} {s' : Phys Kmem} (hn : n ≤ pages sz) (hp : Protected d₀ d n)
      (hk : Keeps (r + d₀.holds) s s') (ho : s'.oom = true) (hfree : s.free.length ≤ 1537) :
      CopyEffect d₀ sz r s (none, d) s'

theorem copyuvm_spec {sz : ℕ} {d₀ : Pgdir} {s : Phys Kmem} (hsz : sz ≤ KERNBASE)
    (ha : Balanced InRange s.kmem (r + d₀.holds)) :
    wp (copyuvm d₀ sz) (fun res s' => CopyEffect d₀ sz r s res s' ∧
      Balanced InRange s'.kmem (r + res.2.holds + res.1.elim 0 Pgdir.holds))
      (fun e _ => (e = .copyuvmExist ∨ e = .copyuvmPresent) ∧
        ∃ w < pages sz, (d₀.ent w).P = false) s := by
  have hpg := pages_le_UPAGES hsz
  rw [UPAGES_eq] at hpg
  unfold copyuvm
  simp only [wp_bind]
  refine wp_mono (setupkvm_spec (κ := Kmem) ha) (fun res s₁ h => ?_) fun _ _ h => h.elim
  cases res with
  | none =>
    obtain ⟨ha₁, hk₁, ho₁, hlen⟩ := h
    refine ⟨.failed (Nat.zero_le _) (.refl d₀) hk₁ ho₁ (by omega), ?_⟩
    rw [Option.elim_none, add_zero]
    exact ha₁
  | some c₀ =>
    obtain ⟨ha₁, -, hm₁, ho₁, hz, hk, hlen, -⟩ := h
    have hstart : Sharing r s₁ d₀ c₀ 0 s₁ d₀ c₀ :=
      ⟨ha₁, rfl, rfl, .refl d₀, fun w hw => absurd hw (Nat.not_lt_zero w),
        ⟨fun w hw => absurd hw (Nat.not_lt_zero w), fun w _ hw => hz w hw, hk⟩, rfl⟩
    have hloop := @copyuvmLoop_spec _ _ _ hsz _ _ _ loopFuel _ _ _ _ (by simp only [loopFuel]; omega)
      (Nat.zero_le _) hstart
    rw [Nat.zero_mul] at hloop
    simp only [wp_bind]
    refine wp_post hloop fun res s₂ h => ?_
    obtain ⟨ok, d, c⟩ := res
    rcases h with ⟨hok, hS⟩ | ⟨hok, hm₂, ho₂, hlen₂, ⟨n, -, hn, hp⟩, ha₂⟩
    · dsimp only at hok hS ⊢
      rw [if_pos hok]
      have hlen₂ := hS.len
      have hnum := c.numTables_le_max
      refine ⟨.copied hS.parent hS.present hS.child (hS.mem.trans hm₁) (hS.oom.trans ho₁)
        (by omega), ?_⟩
      rw [Option.elim_some, hS.parent.holds]
      exact hS.acct
    · dsimp only at hok hp ha₂ ⊢
      rw [if_neg (by rw [hok]; simp)]
      simp only [wp_bind, wp_pure]
      refine wp_mono (freevm_spec (κ := Kmem) ha₂) (fun _ s₃ h₃ => ?_) fun _ _ h => h.elim
      obtain ⟨ha₃, hk₃, ho₃⟩ := h₃
      refine ⟨.failed hn hp ((Keeps.of_mem_eq (hm₂.trans hm₁)).trans hk₃) (ho₃.trans ho₂)
        (by omega), ?_⟩
      rw [Option.elim_none, add_zero, hp.holds]
      exact ha₃

/-! ## The page-fault handler -/

omit [Layout] in
theorem replaced_grantWrite {d d' : Pgdir} {v va : ℕ} {e : Pte} (h : Replaced d d' v e)
    (hva : va < 2 ^ 32) (hv : va / 4096 = v) (hd : d'.has (v / 1024)) :
    Replaced d (grantWrite d' va) v { e with CoW := false, W := true } := by
  have hder : d'.deref va = e := by
    rw [Pgdir.deref_of_has hva (by rwa [hv]), hv, h.ent, if_pos rfl]
  unfold Cow.grantWrite
  rw [hder]
  exact (h.store hva hv hd).store hva hv ((Pgdir.has_store _).mpr hd)

/-- What the handler does for page `v` of `d`, beside the ledger `r`. -/
inductive FaultEffect (d : Pgdir) (v : ℕ) (r : Ledger ℕ) (s : Phys Kmem) :
    Pgdir → Phys Kmem → Prop
  /-- Nobody else uses the frame: the page becomes writable. -/
  | sole {d' : Pgdir} (h1 : refs (r + d.holds) (d.ent v).ppn ≤ 1)
      (hd : Replaced d d' v { d.ent v with CoW := false, W := true }) : FaultEffect d v r s d' s
  /-- The process gets a copy in the frame `mem`. -/
  | copied {d' : Pgdir} {mem : ℕ} {s' : Phys Kmem} (h2 : 1 < refs (r + d.holds) (d.ent v).ppn)
      (hmem : (r + d.holds) mem = 0)
      (hd : Replaced d d' v { P := true, W := true, U := true, ppn := mem })
      (hc : s'.mem mem = s.mem (d.ent v).ppn) (hk : ∀ f, f ≠ mem → s'.mem f = s.mem f)
      (ho : s'.oom = s.oom) : FaultEffect d v r s d' s'

omit [Layout] in
/-- The entry the handler leaves. -/
theorem FaultEffect.entry {d d' : Pgdir} {v : ℕ} {s s' : Phys Kmem}
    (h : FaultEffect d v r s d' s') (hP : (d.ent v).P = true) :
    ∃ e, Replaced d d' v e ∧ e.P = true ∧ e.W = true ∧ e.CoW = false ∧
      ((d.ent v).U = true → e.U = true) := by
  cases h with
  | sole h1 hd => exact ⟨_, hd, hP, rfl, rfl, fun h => h⟩
  | copied h2 hmem hd => exact ⟨_, hd, rfl, rfl, rfl, fun _ => rfl⟩

omit [Layout] in
/-- Taking the frame over changes no account. -/
theorem replaced_holds_sole {d d' : Pgdir} {v : ℕ} (hv : v < UPAGES)
    (h : Replaced d d' v { d.ent v with CoW := false, W := true }) : d'.holds = d.holds := by
  have hsame : Pgdir.pteHold { d.ent v with CoW := false, W := true } = Pgdir.pteHold (d.ent v) :=
    rfl
  have := h.holds hv
  rw [hsame] at this
  exact add_right_cancel this

omit [Layout] in
/-- The handler gives no frame a second claim. -/
theorem FaultEffect.grow {d d' : Pgdir} {v : ℕ} {s s' : Phys Kmem}
    (h : FaultEffect d v r s d' s') (hv : v < UPAGES) (hP : (d.ent v).P = true) :
    Grow (r + d.holds) (r + d'.holds) := by
  cases h with
  | sole h1 hd =>
    rw [replaced_holds_sole hv hd]
    exact .refl _
  | copied h2 hmem hd =>
    have hswap := hd.holds hv
    rw [Pgdir.pteHold_of_P hP, Pgdir.pteHold_of_P rfl] at hswap
    exact Grow.swap hswap hmem

/-- The handler on a present page. It stops only when there is no frame for the copy. -/
theorem makeCopy_spec {d : Pgdir} {v va : ℕ} {s : Phys Kmem} (hv : va / 4096 = v)
    (hup : v < UPAGES) (hP : (d.ent v).P = true) (ha : Balanced InRange s.kmem (r + d.holds)) :
    wp (makeCopy d va) (fun d' s' => FaultEffect d v r s d' s' ∧
      Balanced InRange s'.kmem (r + d'.holds))
      (fun e s' => e = .nullDeref ∧ s'.oom = true ∧ s.free = [] ∧
        1 < refs (r + d.holds) (d.ent v).ppn) s := by
  have hva : va < 2 ^ 32 := by
    rw [UPAGES_eq] at hup
    omega
  have hhas : d.has (v / 1024) := Pgdir.has_of_ent_ne fun e => by simp [e, Pte.zero] at hP
  have hfind : d.find va = some (d.ent v) := by
    rw [Pgdir.find_of_has hva (by rwa [hv]), hv]
  have hself := Replaced.refl d v
  unfold makeCopy
  rw [hfind]
  simp only [wp_bind, wp_get_refcount]
  have hcount := ha.count (d.ent v).ppn
  generalize s.kmem.refcount_list (d.ent v).ppn = n at hcount ⊢
  by_cases h2 : 1 < refs (r + d.holds) (d.ent v).ppn
  · rw [if_pos (by rw [hcount]; exact_mod_cast h2)]
    -- `u` is the ledger of the directory without the claim of this page
    obtain ⟨u, hu⟩ := Pgdir.exists_holds_split hup hP
    have hsplit : r + d.holds = r + u + shared (d.ent v).ppn := by rw [hu, add_assoc]
    have hother : (r + u) (d.ent v).ppn ≠ 0 := by
      rw [hsplit, refs_add, refs_shared, if_pos rfl] at h2
      exact refs_pos.mp (by omega)
    rw [hsplit] at ha
    simp only [wp_bind]
    refine wp_mono (decrease_refcount_spec ha hother) (fun _ s₁ h₁ => ?_) fun _ _ h => h.elim
    obtain ⟨ha₁, hm₁, ho₁, hfl₁⟩ := h₁
    refine wp_mono (kalloc_spec ha₁) (fun res s₂ h₃ => ?_) fun _ _ h => h.elim
    cases res with
    | none =>
      obtain ⟨rfl, hnone⟩ := h₃
      exact ⟨rfl, rfl, hfl₁.symm.trans hnone, h2⟩
    | some mem =>
      obtain ⟨hmem, hacct, hm₂, ho₂, -⟩ := h₃
      have hne : mem ≠ (d.ent v).ppn := fun e => hother (e ▸ hmem)
      have hrep := replaced_grantWrite (@Replaced.store _ _ _ _ _
        { P := true, U := true, ppn := mem } hself hva hv hhas) hva hv ((Pgdir.has_store _).mpr hhas)
      have hh := hrep.holds hup
      rw [Pgdir.pteHold_of_P hP, hu, Pgdir.pteHold_of_P rfl, add_right_comm] at hh
      simp only [wp_bind, wp_modify, wp_pure]
      refine ⟨.copied h2 ?_ hrep ?_ (fun f hf => ?_) (ho₂.trans ho₁), ?_⟩
      · rw [hsplit, Pi.add_apply, hmem, shared_ne hne, add_zero]
      · rw [Phys.fill_mem_self, hm₂, hm₁]
      · rw [Phys.fill_mem_ne _ _ _ hf, hm₂, hm₁]
      · rw [add_right_cancel hh, ← add_assoc]
        exact hacct _ (isClaim_shared mem)
  · rw [if_neg (by rw [hcount]; exact_mod_cast h2)]
    have hrep := replaced_grantWrite hself hva hv hhas
    refine ⟨.sole (by omega) hrep, ?_⟩
    rw [replaced_holds_sole hup hrep]
    exact ha

end Spec

end OsLabs.Cow
