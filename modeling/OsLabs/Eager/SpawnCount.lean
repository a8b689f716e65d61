import OsLabs.Eager.Spawn

/-!
# What `spawn` returns

`spawn` counts the children it has made, and stores -1 or a pid in every entry of the array. In a
kernel whose accounts are in order, the entries that are not -1 are as many.

* `fork_wp`: `fork` does to the kernel what `forkWith` does, so its specification applies;
* `storeInt_spec`: a store to the array changes one entry of it, since a process maps no frame twice;
* `spawn_as_forks`: `spawn` is a loop of `fork`, and what it returns.
-/

namespace OsLabs.Eager

open Xv6 StateError Ledger
open Base (Kmem)

/-- The byte at `va` of the process `p`. -/
def Sys.byte (s : Sys) (p : ProcPtr) (va : ℕ) : UInt8 :=
  (s.kernel.pgdir p).elim 0 fun d => s.kernel.phys.mem (d.deref va).ppn (va % PGSIZE)

/-- The `int` at `va` of the process `p`. -/
def Sys.int (s : Sys) (p : ProcPtr) (va : ℕ) : ℤ :=
  Int.bmod ((s.byte p va).toNat + 256 * (s.byte p (uint (va + 1))).toNat +
    256 ^ 2 * (s.byte p (uint (va + 2))).toNat + 256 ^ 3 * (s.byte p (uint (va + 3))).toNat) (2 ^ 32)

/-- The number of entries of the array of `n` entries at `pids` that are not -1. -/
def Sys.children (s : Sys) (p : ProcPtr) (n pids : ℕ) : ℕ :=
  ((Finset.range n).filter fun j => s.int p (uint (pids + 4 * j)) ≠ -1).card

/-- The files and the directory that are open in `cur` are in use. -/
structure FilesOk (s : Sys) (cur : ProcPtr) : Prop where
  ofile : ∀ i f, s.ofile cur i = some f → 1 ≤ s.fref f
  cwd : s.cwd cur ≠ none

/-! ## `fork` on the kernel -/

section Fork

variable {s s' : Sys} {cur np : ProcPtr}

theorem FilesOk.congr (h : FilesOk s cur) (ho : s'.ofile = s.ofile) (hc : s'.cwd = s.cwd)
    (hf : s'.fref = s.fref) : FilesOk s' cur :=
  ⟨fun i f hi => by rw [hf]; exact h.ofile i f (by rwa [← ho]), by rw [hc]; exact h.cwd⟩

theorem dupFiles_ok (hne : np ≠ cur) (is : List (Fin NOFILE)) : ∀ s : Sys, FilesOk s cur →
    wp (dupFiles cur np is) (fun _ s' => FilesOk s' cur ∧ s'.kernel = s.kernel)
      (fun _ _ => False) s := by
  induction is with
  | nil => exact fun s h => ⟨h, rfl⟩
  | cons i is ih =>
    intro s h
    unfold dupFiles filedup
    rw [wp_bind, wp_get]
    cases hi : s.ofile cur i with
    | none => exact ih s h
    | some f =>
      simp only [wp_bind, wp_get, wp_ite, wp_throw, wp_modify, wp_pure]
      refine ⟨fun hlt => ?_, fun _ => ih _ ⟨fun j g hj => ?_, h.cwd⟩⟩
      · exact absurd (h.ofile i f hi) (Nat.not_le.mpr hlt)
      · dsimp only at hj ⊢
        rw [Function.update_of_ne hne.symm] at hj
        have := h.ofile j g hj
        rw [Function.update_apply]
        split
        · omega
        · exact this

theorem dupRest_ok (hne : np ≠ cur) (h : FilesOk s cur) :
    wp (dupRest cur np) (fun _ s' => FilesOk s' cur ∧ s'.kernel = s.kernel)
      (fun _ _ => False) s := by
  unfold dupRest dupCwd idup
  simp only [wp_bind, wp_modify, wp_get]
  refine wp_mono (dupFiles_ok hne _ s h) (fun _ s₁ h₁ => ?_) fun _ _ he => he
  obtain ⟨i, hi⟩ := Option.ne_none_iff_exists'.mp h₁.1.cwd
  rw [hi]
  refine ⟨⟨h₁.1.ofile, ?_⟩, h₁.2⟩
  dsimp only
  change Function.update s₁.cwd np _ cur ≠ none
  rw [Function.update_of_ne hne.symm]
  exact h₁.1.cwd

variable [Layout]

/-- `copyuvm` leaves the directory of the parent as it is. -/
theorem copyuvm_snd (d : Pgdir) (sz : ℕ) (t : Phys Kmem) :
    wp (copyuvm d sz) (fun r _ => r.2 = d) (fun _ _ => True) t := by
  unfold copyuvm
  rw [wp_bind]
  refine wp_mono (wp_eq _ t) (fun o t₁ _ => ?_) fun _ _ _ => trivial
  cases o with
  | none => exact rfl
  | some c =>
    rw [wp_bind]
    refine wp_mono (wp_eq _ t₁) (fun r t₂ _ => ?_) fun _ _ _ => trivial
    split
    · exact rfl
    · rw [wp_bind]
      exact wp_mono (wp_eq _ t₂) (fun _ _ _ => rfl) fun _ _ _ => trivial

/-- `allocproc` takes a slot that was not in use, and leaves the others and the directories. -/
theorem allocproc_other {k : Kernel Kmem} (hl : k.live cur) :
    wp allocproc (fun o k' => o ≠ some cur ∧ k'.proc cur = k.proc cur ∧ k'.pgdir = k.pgdir)
      (fun _ _ => True) k := by
  unfold allocproc
  rw [wp_bind, wp_get]
  cases hf : k.proc.first (·.state = .UNUSED) with
  | none => exact ⟨(Option.some_ne_none cur).symm, rfl, rfl⟩
  | some p =>
    have hne : cur ≠ p := fun e => hl (by rw [e]; exact of_decide_eq_true (Table.first_some hf))
    dsimp only
    split
    · exact trivial
    · simp only [wp_bind, wp_set, wp_onPhys]
      refine wp_mono (wp_eq _ _) (fun r t _ => ?_) fun _ _ _ => trivial
      cases r with
      | none =>
        simp only [wp_bind, wp_setKstack, wp_setProc, wp_pure]
        refine ⟨(Option.some_ne_none cur).symm, ?_, trivial⟩
        rw [Table.set_ne _ _ hne, Table.set_ne _ _ hne]
      | some f =>
        simp only [wp_bind, wp_setKstack, wp_pure]
        refine ⟨fun e => hne (Option.some.inj e).symm, ?_, trivial⟩
        rw [Table.set_ne _ _ hne]

/-- `fork` does to the kernel what `forkWith` does. -/
theorem fork_wp {Q : Result → Kernel Kmem → Prop} {E : Panic → Kernel Kmem → Prop}
    (hl : s.kernel.live cur) (hfiles : FilesOk s cur)
    (h : wp (forkWith copyuvm false cur) Q E s.kernel) :
    wp (fork cur) (fun r s' => Q (.ret r) s'.kernel ∧ FilesOk s' cur)
      (fun e s' => ∃ e', e = .kernel e' ∧ E e' s'.kernel) s := by
  unfold forkWith at h
  unfold fork
  rw [wp_bind] at h ⊢
  rw [wp_onKernel]
  refine wp_mono (wp_and h (allocproc_other hl)) (fun o k₁ h₁ => ?_)
    fun e k₁ h₁ => ⟨e, rfl, h₁.1⟩
  obtain ⟨h₁, hne, hproc, hpg⟩ := h₁
  cases o with
  | none => exact ⟨h₁, hfiles.ofile, hfiles.cwd⟩
  | some np =>
    have hne' : np ≠ cur := fun e => hne (by rw [e])
    unfold copyFor
    unfold getPgdir at h₁ ⊢
    simp only [wp_bind, wp_onKernel, wp_get] at h₁ ⊢
    cases hd : k₁.pgdir cur with
    | none =>
      rw [hd] at h₁
      exact ⟨_, rfl, h₁⟩
    | some d =>
      rw [hd] at h₁
      simp only [wp_pure, wp_onPhys, wp_setPgdir] at h₁ ⊢
      refine wp_mono (wp_and h₁ (copyuvm_snd d _ _)) (fun r t h₂ => ?_)
        fun e t h₂ => ⟨e, rfl, h₂.1⟩
      obtain ⟨h₂, hsnd⟩ := h₂
      rw [hsnd, ← hd, Function.update_eq_self] at h₂
      obtain ⟨c, d'⟩ := r
      cases c with
      | none =>
        dsimp only at h₂ ⊢
        simp only [unalloc, kfreeKstack, wp_bind, wp_get, wp_onKernel] at h₂ ⊢
        refine wp_mono h₂ (fun _ _ h₃ => ?_) fun e _ h₃ => ⟨e, rfl, h₃⟩
        exact ⟨h₃, hfiles.ofile, hfiles.cwd⟩
      | some c =>
        dsimp only at h₂ ⊢
        simp only [Bool.false_eq_true, if_false, wp_bind, wp_setProc, wp_get, wp_pure] at h₂
        unfold forkChild
        simp only [wp_bind, wp_modify, wp_get, wp_pure]
        refine wp_mono (dupRest_ok hne' (hfiles.congr rfl rfl rfl)) (fun _ s₁ h₃ => ?_)
          fun _ _ he => he.elim
        obtain ⟨h₃, hk⟩ := h₃
        refine ⟨?_, h₃.congr rfl rfl rfl⟩
        unfold Sys.setProc
        rw [hk]
        simp only [Sys.setTf, Sys.setProc, Table.set_set, Table.set_self] at h₂ ⊢
        exact h₂

/-- What `fork` leaves alone: the directory and the slot of the parent, and the contents of the
frames in use. -/
structure Forked (x : Ledger ℕ) (k : Kernel Kmem) (cur : ProcPtr) (res : Result)
    (k' : Kernel Kmem) : Prop where
  pgdir : k'.pgdir cur = k.pgdir cur
  proc : k'.proc cur = k.proc cur
  mem : Keeps (x + k.total) k.phys k'.phys
  res : k'.nextpid = k.nextpid ∧ res = .ret (-1) ∨
    k'.nextpid = k.nextpid + 1 ∧ (res = .ret (-1) ∨ res = .ret k.nextpid)

theorem forked_of_effect {x : Ledger ℕ} {k k' : Kernel Kmem} {d : Pgdir} {sz : ℕ} {res : Result}
    (hl : k.live cur) (hd : k.pgdir cur = some d)
    (h : ForkEffect (Lazy.CopyEffect d sz) false x k cur res k') : Forked x k cur res k' := by
  have htot : x + k.total = x + k.rest cur + d.holds := by
    rw [Kernel.total_eq_rest hl hd, add_assoc]
  have hsub : ∀ {f g : ℕ}, (x + k.total) g ≠ 0 → (x + k.rest cur + excl f + d.holds) g ≠ 0 := by
    intro f g hg
    refine ne_zero_of_le ?_ hg
    rw [htot]
    simp only [refs_add]
    omega
  cases h with
  | full => exact ⟨rfl, rfl, .refl _ _, Or.inl ⟨rfl, rfl⟩⟩
  | @noStack np hnp =>
    have hne : cur ≠ np := fun e => hl (by rw [e]; exact of_decide_eq_true (Table.first_some hnp))
    exact ⟨rfl, by simp [Kernel.unborn, Table.set_ne, hne], fun _ _ => rfl, Or.inr ⟨rfl, Or.inl rfl⟩⟩
  | @noCopy np f s₁ s₂ s₃ d' hnp hf hm₁ ho₁ hfree hc ha hk ho =>
    have hne : cur ≠ np := fun e => hl (by rw [e]; exact of_decide_eq_true (Table.first_some hnp))
    cases hc with
    | failed _ hk' =>
      refine ⟨?_, by simp [Kernel.unborn, Table.set_ne, hne], fun g hg => ?_,
        Or.inr ⟨rfl, Or.inl rfl⟩⟩
      · change Function.update (Function.update k.pgdir cur (some d)) np none cur = _
        rw [Function.update_of_ne hne, Function.update_self, hd]
      · rw [← hm₁, ← hk' g (hsub hg)]
        exact hk g (htot ▸ hg)
  | @born np f s₁ s₃ d' d₂ hnp hf hm₁ ho₁ hfree hc ha =>
    have hne : cur ≠ np := fun e => hl (by rw [e]; exact of_decide_eq_true (Table.first_some hnp))
    cases hc with
    | copied _ _ _ _ hk' =>
      refine ⟨?_, by simp [Kernel.born, Table.set_ne, hne], fun g hg => ?_,
        Or.inr ⟨rfl, Or.inr rfl⟩⟩
      · change Function.update (Function.update k.pgdir cur (some d)) np _ cur = _
        rw [Function.update_of_ne hne, Function.update_self, hd]
      · rw [← hm₁]
        exact hk' g (hsub hg)

end Fork

/-! ## The caller -/

section Caller

variable [Layout]

/-- A process that calls `spawn`: it is running, the files it has open are in use, and it can write
to the pages of an array of `n` entries at `pids`. -/
structure Caller (x : Ledger ℕ) (s : Sys) (cur : ProcPtr) (n pids : ℕ) : Prop where
  inv : InvOf EagerOk x s.kernel
  nextpid_le : s.kernel.nextpid ≤ INT_MAX
  running : (s.kernel.proc cur).state = .RUNNING
  files : FilesOk s cur
  array_le : pids + 4 * n ≤ (s.kernel.proc cur).sz
  array : ∀ d, s.kernel.pgdir cur = some d → ∀ a, pids ≤ a → a < pids + 4 * n →
    (d.ent (a / 4096)).P = true ∧ (d.ent (a / 4096)).W = true

variable {x : Ledger ℕ} {s s' : Sys} {cur : ProcPtr} {n pids a : ℕ}

theorem Caller.live (h : Caller x s cur n pids) : s.kernel.live cur := live_of_running h.running

theorem Caller.dir (h : Caller x s cur n pids) :
    ∃ d, s.kernel.pgdir cur = some d ∧ EagerOk (s.kernel.proc cur).sz d := by
  obtain ⟨d, f, hd, -, hok⟩ := h.inv.live cur h.live
  exact ⟨d, hd, hok⟩

/-- The addresses of the array are user addresses. -/
theorem Caller.lt (h : Caller x s cur n pids) (ha : a ≤ pids + 4 * n) : a ≤ KERNBASE := by
  obtain ⟨d, -, hok⟩ := h.dir
  exact (ha.trans h.array_le).trans hok.small.1

theorem Caller.page_lt (h : Caller x s cur n pids) (ha : a < pids + 4 * n) :
    a / 4096 < UPAGES := by
  have := h.lt (a := a + 1) ha
  rw [KERNBASE_eq] at this
  rw [UPAGES_eq]
  omega

theorem Caller.find (h : Caller x s cur n pids) {d : Pgdir} (hd : s.kernel.pgdir cur = some d)
    (h₁ : pids ≤ a) (h₂ : a < pids + 4 * n) : d.find a = some (d.ent (a / 4096)) := by
  have := h.lt h₂.le
  rw [KERNBASE_eq] at this
  exact Pgdir.find_of_has (by omega) (Pgdir.has_of_P (h.array d hd a h₁ h₂).1)

theorem Caller.byte (h : Caller x s cur n pids) {d : Pgdir} (hd : s.kernel.pgdir cur = some d)
    (h₁ : pids ≤ a) (h₂ : a < pids + 4 * n) :
    s.byte cur a = s.kernel.phys.mem (d.ent (a / 4096)).ppn (a % 4096) := by
  rw [Sys.byte, hd, Option.elim_some, Pgdir.deref, h.find hd h₁ h₂]
  rfl

/-- No frame is mapped at two pages. -/
theorem Caller.inj (h : Caller x s cur n pids) {d : Pgdir} (hd : s.kernel.pgdir cur = some d) :
    d.Inj := by
  intro v w hv hw hPv hPw he
  refine Pgdir.inj_of_refs hv hw hPv hPw he ?_
  have := (show Base.Balanced InRange s.kernel.phys.kmem (x + s.kernel.total) from
    h.inv.acct).single (d.ent v).ppn
  rw [Kernel.total_eq_rest h.live hd] at this
  simp only [Pgdir.holds, refs_add] at this
  omega

/-- At most the contents of the frames differ. -/
def Refilled (s s' : Sys) : Prop :=
  ∃ mem, s' = { s with kernel := { s.kernel with phys := { s.kernel.phys with mem := mem } } }

omit [Layout] in
theorem Refilled.refl (s : Sys) : Refilled s s := ⟨_, rfl⟩

omit [Layout] in
theorem Refilled.trans {s'' : Sys} (h : Refilled s s') (h' : Refilled s' s'') :
    Refilled s s'' := by
  obtain ⟨m, rfl⟩ := h
  obtain ⟨m', rfl⟩ := h'
  exact ⟨m', rfl⟩

theorem Caller.refilled (h : Caller x s cur n pids) (hr : Refilled s s') :
    Caller x s' cur n pids := by
  obtain ⟨m, rfl⟩ := hr
  exact ⟨⟨h.inv.acct, h.inv.live, h.inv.pids⟩, h.nextpid_le, h.running,
    h.files.congr rfl rfl rfl, h.array_le, h.array⟩

/-! ## Stores to the array -/

/-- A store of a byte changes that byte of the array. -/
theorem storeByte_spec (h : Caller x s cur n pids) (h₁ : pids ≤ a) (h₂ : a < pids + 4 * n)
    (b : UInt8) : wp (storeByte cur a b) (fun _ s' => Refilled s s' ∧ ∀ c, pids ≤ c →
      c < pids + 4 * n → s'.byte cur c = if c = a then b else s.byte cur c)
      (fun _ _ => False) s := by
  obtain ⟨d, hd, -⟩ := h.dir
  obtain ⟨hP, hW⟩ := h.array d hd a h₁ h₂
  have hperm : (some (d.ent (a / 4096))).filter (fun e => e.P && e.W) = some (d.ent (a / 4096)) := by
    rw [Option.filter_some, hP, hW]
    rfl
  unfold storeByte
  rw [wp_bind, wp_get, hd]
  dsimp only
  rw [h.find hd h₁ h₂, hperm]
  dsimp only
  rw [wp_modify]
  have hr : Refilled s (s.poke (d.ent (a / 4096)).ppn (a % PGSIZE) b) := ⟨_, rfl⟩
  refine ⟨hr, fun c hc₁ hc₂ => ?_⟩
  rw [(h.refilled hr).byte hd hc₁ hc₂, h.byte hd hc₁ hc₂]
  change (s.kernel.phys.fill _ _).mem _ _ = _
  by_cases hpage : c / 4096 = a / 4096
  · have hoff : c % 4096 = a % PGSIZE ↔ c = a := by
      rw [PGSIZE]
      omega
    rw [hpage, Phys.fill_mem_self, Function.update_apply]
    exact if_congr hoff rfl rfl
  · rw [Phys.fill_mem_ne, if_neg fun e => hpage (by rw [e])]
    exact fun he => hpage (h.inj hd _ _ (h.page_lt hc₂) (h.page_lt h₂)
      (h.array d hd c hc₁ hc₂).1 hP he)

theorem storeBytes_spec (bs : List UInt8) : ∀ {a : ℕ} {s : Sys}, Caller x s cur n pids →
    pids ≤ a → a + bs.length ≤ pids + 4 * n → wp (storeBytes cur a bs) (fun _ s' => Refilled s s' ∧
      ∀ c, pids ≤ c → c < pids + 4 * n → s'.byte cur c =
        if a ≤ c ∧ c < a + bs.length then bs.getD (c - a) 0 else s.byte cur c)
      (fun _ _ => False) s := by
  induction bs with
  | nil =>
    intro a s _ _ _
    refine ⟨.refl s, fun c _ _ => ?_⟩
    rw [if_neg (by simp)]
  | cons b bs ih =>
    intro a s h h₁ h₂
    rw [List.length_cons] at h₂
    have hlt := h.lt (a := a + 1) (by omega)
    rw [KERNBASE_eq] at hlt
    have hnext : uint (a + 1) = a + 1 := Nat.mod_eq_of_lt (by omega)
    unfold storeBytes
    rw [wp_bind, hnext]
    refine wp_mono (storeByte_spec h h₁ (by omega) b) (fun _ s₁ h₃ => ?_) fun _ _ he => he
    obtain ⟨hr, hb⟩ := h₃
    refine wp_post (ih (h.refilled hr) (by omega) (by omega)) fun _ s₂ h₄ => ?_
    refine ⟨hr.trans h₄.1, fun c hc₁ hc₂ => ?_⟩
    rw [h₄.2 c hc₁ hc₂, hb c hc₁ hc₂, List.length_cons]
    by_cases hca : c = a
    · subst hca
      rw [if_neg (by omega), if_pos rfl, if_pos (by omega), Nat.sub_self]
      rfl
    · rw [if_neg hca]
      by_cases hin : a + 1 ≤ c ∧ c < a + 1 + bs.length
      · obtain ⟨i, rfl⟩ := Nat.exists_eq_add_of_le hin.1
        have hi : a + 1 + i - a = i + 1 := by omega
        rw [if_pos hin, if_pos (by omega), hi, List.getD_cons_succ, Nat.add_sub_cancel_left]
      · rw [if_neg hin, if_neg (by omega)]

omit [Layout] in
/-- The bytes of an `int` give the `int` back. -/
theorem bmod_intBytes {v : ℤ} (h₁ : -2 ^ 31 ≤ v) (h₂ : v < 2 ^ 31) {b : ℕ → UInt8}
    (hb : ∀ i < 4, b i = (intBytes v).getD i 0) :
    Int.bmod ((b 0).toNat + 256 * (b 1).toNat + 256 ^ 2 * (b 2).toNat + 256 ^ 3 * (b 3).toNat)
      (2 ^ 32) = v := by
  have hbyte : ∀ i < 4, (b i).toNat = (v % 2 ^ 32).toNat / 256 ^ i % 256 := fun i hi => by
    have hget : (intBytes v).getD i 0 = UInt8.ofNat ((v % 2 ^ 32).toNat / 256 ^ i) := by
      simp [intBytes, List.getD_eq_getElem?_getD, hi]
    rw [hb i hi, hget]
    exact UInt8.toNat_ofNat
  rw [hbyte 0 (by decide), hbyte 1 (by decide), hbyte 2 (by decide), hbyte 3 (by decide)]
  rw [Int.bmod_def]
  omega

/-- Where no byte of an entry has changed, the entry has not. -/
theorem Caller.int_congr (h : Caller x s cur n pids) {i : ℕ} (hi : i < n)
    (hb : ∀ c, pids + 4 * i ≤ c → c < pids + 4 * i + 4 → s'.byte cur c = s.byte cur c) :
    s'.int cur (uint (pids + 4 * i)) = s.int cur (uint (pids + 4 * i)) := by
  have hlt := h.lt (a := pids + 4 * i + 4) (by omega)
  rw [KERNBASE_eq] at hlt
  unfold Sys.int uint
  rw [hb _ (by omega) (by omega), hb _ (by omega) (by omega), hb _ (by omega) (by omega),
    hb _ (by omega) (by omega)]

/-- A store to an entry changes that entry. -/
theorem storeInt_spec (h : Caller x s cur n pids) {j : ℕ} (hj : j < n) {v : ℤ}
    (h₁ : -2 ^ 31 ≤ v) (h₂ : v < 2 ^ 31) : wp (storeInt cur (uint (pids + 4 * j)) v)
      (fun _ s' => Refilled s s' ∧ s'.int cur (uint (pids + 4 * j)) = v ∧ ∀ i < n, i ≠ j →
        s'.int cur (uint (pids + 4 * i)) = s.int cur (uint (pids + 4 * i)))
      (fun _ _ => False) s := by
  have hlt := h.lt (a := pids + 4 * j + 4) (by omega)
  rw [KERNBASE_eq] at hlt
  have ha : uint (pids + 4 * j) = pids + 4 * j := Nat.mod_eq_of_lt (by omega)
  have hlen : (intBytes v).length = 4 := by simp [intBytes]
  unfold storeInt
  refine wp_mono (storeBytes_spec (intBytes v) h (by omega) (by omega)) (fun _ s' h' => ?_)
    fun _ _ he => he
  rw [ha, hlen] at h'
  refine ⟨h'.1, ?_, fun i hi hij => h.int_congr hi fun c hc₁ hc₂ => ?_⟩
  · have hb : ∀ i < 4, s'.byte cur (pids + 4 * j + i) = (intBytes v).getD i 0 := fun i hi => by
      rw [h'.2 _ (by omega) (by omega), if_pos (by omega), Nat.add_sub_cancel_left]
    rw [ha]
    have := bmod_intBytes h₁ h₂ (b := fun i => s'.byte cur (pids + 4 * j + i)) hb
    unfold Sys.int uint
    rwa [Nat.mod_eq_of_lt (a := pids + 4 * j + 1) (by omega),
      Nat.mod_eq_of_lt (a := pids + 4 * j + 2) (by omega),
      Nat.mod_eq_of_lt (a := pids + 4 * j + 3) (by omega)]
  · rw [h'.2 c (by omega) (by omega), if_neg (by omega)]

/-! ## The rounds -/

/-- How `spawn` can stop within `n` rounds: the pids run out, or a page of the caller is missing. -/
def SpawnStop (s : Sys) (cur : ProcPtr) (n : ℕ) (e : Stop) : Prop :=
  e = .kernel .pidOverflow ∧ INT_MAX < s.kernel.nextpid + n ∨
    (e = .kernel .copyuvmExist ∨ e = .kernel .copyuvmPresent) ∧ ∃ d v,
      s.kernel.pgdir cur = some d ∧ v < pages (s.kernel.proc cur).sz ∧ (d.ent v).P = false

omit [Layout] in
/-- What stops a later round stops the loop. -/
theorem SpawnStop.mono {m : ℕ} {e : Stop} (h : SpawnStop s' cur m e)
    (hd : s'.kernel.pgdir cur = s.kernel.pgdir cur)
    (hp : s'.kernel.proc cur = s.kernel.proc cur)
    (hn : s'.kernel.nextpid + m ≤ s.kernel.nextpid + n) : SpawnStop s cur n e := by
  rcases h with ⟨he, hlt⟩ | ⟨he, d, v, h₁, h₂, h₃⟩
  · exact Or.inl ⟨he, hlt.trans_le hn⟩
  · exact Or.inr ⟨he, d, v, hd ▸ h₁, hp ▸ h₂, h₃⟩

/-- The last pid is not handed out. -/
theorem forkWith_max {k : Kernel Kmem} (h : k.nextpid = INT_MAX) :
    wp (forkWith copyuvm false cur) (fun _ k' => k'.nextpid = INT_MAX) (fun _ _ => True) k := by
  unfold forkWith allocproc
  rw [wp_bind, wp_bind, wp_get]
  cases k.proc.first (·.state = .UNUSED) with
  | none => exact h
  | some p =>
    dsimp only
    rw [if_pos h]
    exact trivial

/-- `fork` in the kernel, by a caller of `spawn`. -/
theorem forkWith_caller (h : Caller x s cur n pids) :
    wp (forkWith copyuvm false cur) (fun res k' => Forked x s.kernel cur res k' ∧
      InvOf EagerOk x k' ∧ k'.nextpid ≤ INT_MAX)
      (fun e _ => SpawnStop s cur 1 (.kernel e)) s.kernel := by
  obtain ⟨d, hd, hok⟩ := h.dir
  have hpg := pages_le_UPAGES hok.small.1
  have hmax : wp (forkWith copyuvm false cur) (fun _ k' => s.kernel.nextpid = INT_MAX →
      k'.nextpid = INT_MAX) (fun _ _ => True) s.kernel := by
    by_cases hm : s.kernel.nextpid = INT_MAX
    · exact wp_post (forkWith_max hm) fun _ _ he _ => he
    · exact wp_mono (wp_eq _ _) (fun _ _ _ he => absurd he hm) fun _ _ _ => trivial
  refine wp_mono (wp_and (fork_spec h.inv h.live hd) hmax) (fun res k' hk => ?_) fun e _ he => ?_
  · have hf := forked_of_effect h.live hd hk.1
    refine ⟨hf, fork_inv h.inv h.live hd hk.1, ?_⟩
    have := h.nextpid_le
    rcases hf.res with ⟨hn, -⟩ | ⟨hn, -⟩
    · exact hn ▸ this
    · by_cases hm : s.kernel.nextpid = INT_MAX
      · exact (hk.2 hm).le
      · omega
  · rcases he.1 with ⟨rfl, hn⟩ | ⟨_, v, hv, -, -, ⟨hcause, hcov⟩ | ⟨-, hup, -⟩ | ⟨-, -, -, hlazy, -⟩⟩
    · exact Or.inl ⟨rfl, by omega⟩
    · have hP := Bool.eq_false_iff.mpr fun hP => hcov (Or.inl hP)
      refine Or.inr ⟨?_, d, v, hd, hv, hP⟩
      rcases hcause with rfl | rfl
      · exact Or.inl rfl
      · exact Or.inr rfl
    · omega
    · rw [hok.lazy] at hlazy
      cases hlazy

/-- After `fork` the caller can go on, and the array is as it was. -/
theorem fork_caller (h : Caller x s cur n pids) :
    wp (fork cur) (fun r s' => Caller x s' cur n pids ∧ Forked x s.kernel cur (.ret r) s'.kernel ∧
      ∀ i < n, s'.int cur (uint (pids + 4 * i)) = s.int cur (uint (pids + 4 * i)))
      (fun e _ => SpawnStop s cur 1 e) s := by
  obtain ⟨d, hd, -⟩ := h.dir
  refine wp_mono (fork_wp h.live h.files (forkWith_caller h)) (fun r s' h' => ?_) fun e s' he => ?_
  · obtain ⟨⟨hf, hinv, hmax⟩, hfiles⟩ := h'
    have hc : Caller x s' cur n pids := ⟨hinv, hmax, by rw [hf.proc]; exact h.running, hfiles,
      by rw [hf.proc]; exact h.array_le, by rw [hf.pgdir]; exact h.array⟩
    refine ⟨hc, hf, fun i hi => h.int_congr hi fun c hc₁ hc₂ => ?_⟩
    rw [h.byte hd (by omega) (by omega), hc.byte (hf.pgdir.trans hd) (by omega) (by omega),
      hf.mem _ (refs_pos.mp (held_of_present h.live hd (h.page_lt (by omega))
        (h.array d hd c (by omega) (by omega)).1))]
  · obtain ⟨e', rfl, he⟩ := he
    exact he

/-- A round with `fork`: the entry is -1 unless a child was made. -/
theorem forkRound_spec (h : Caller x s cur n pids) {j : ℕ} (hj : j < n) :
    wp (forkRound cur (uint (pids + 4 * j))) (fun r s' => Caller x s' cur n pids ∧
      (s'.kernel.pgdir cur = s.kernel.pgdir cur ∧ s'.kernel.proc cur = s.kernel.proc cur ∧
        s'.kernel.nextpid ≤ s.kernel.nextpid + 1) ∧
      (s'.int cur (uint (pids + 4 * j)) ≠ -1 ↔ r > 0) ∧ ∀ i < n, i ≠ j →
        s'.int cur (uint (pids + 4 * i)) = s.int cur (uint (pids + 4 * i)))
      (fun e _ => SpawnStop s cur 1 e) s := by
  unfold forkRound
  rw [wp_bind]
  refine wp_mono (storeInt_spec h hj (by decide) (by decide)) (fun _ s₁ h₁ => ?_)
    fun _ _ he => he.elim
  obtain ⟨hr, hself, hother⟩ := h₁
  have hc := h.refilled hr
  obtain ⟨m, rfl⟩ := hr
  rw [wp_bind]
  refine wp_mono (fork_caller hc) (fun r s₂ h₂ => ?_) fun e _ he => he.mono rfl rfl (le_refl _)
  obtain ⟨hc₂, hf, hint⟩ := h₂
  have hnext : s₂.kernel.nextpid ≤ s.kernel.nextpid + 1 := by
    rcases hf.res with ⟨hn, -⟩ | ⟨hn, -⟩
    · exact hn ▸ Nat.le_succ _
    · exact hn.le
  by_cases hr : r > 0
  · rw [if_pos hr, wp_bind]
    have hle : r < 2 ^ 31 := by
      have := hc.nextpid_le
      rw [INT_MAX] at this
      rcases hf.res with ⟨-, e⟩ | ⟨-, e | e⟩ <;> cases e <;> omega
    refine wp_mono (storeInt_spec hc₂ hj (by omega) hle) (fun _ s₃ h₃ => ?_) fun _ _ he => he.elim
    obtain ⟨hr₃, hself₃, hother₃⟩ := h₃
    have hc₃ := hc₂.refilled hr₃
    obtain ⟨m₃, rfl⟩ := hr₃
    refine ⟨hc₃, ⟨hf.pgdir, hf.proc, hnext⟩, ?_, fun i hi hij => ?_⟩
    · rw [hself₃]
      exact ⟨fun _ => hr, fun _ => by omega⟩
    · rw [hother₃ i hi hij, hint i hi, hother i hi hij]
  · rw [if_neg hr]
    refine ⟨hc₂, ⟨hf.pgdir, hf.proc, hnext⟩, ?_, fun i hi hij => ?_⟩
    · rw [hint j hj, hself]
      exact ⟨fun hne => absurd rfl hne, fun hpos => absurd hpos hr⟩
    · rw [hint i hi, hother i hi hij]

/-- A round of `spawn`. -/
theorem spawnRound_spec (h : Caller x s cur n pids) {j : ℕ} (hj : j < n) :
    wp (spawnRound cur (uint (pids + 4 * j))) (fun b s' => Caller x s' cur n pids ∧
      (s'.kernel.pgdir cur = s.kernel.pgdir cur ∧ s'.kernel.proc cur = s.kernel.proc cur ∧
        s'.kernel.nextpid ≤ s.kernel.nextpid + 1) ∧
      (s'.int cur (uint (pids + 4 * j)) ≠ -1 ↔ b = true) ∧ ∀ i < n, i ≠ j →
        s'.int cur (uint (pids + 4 * i)) = s.int cur (uint (pids + 4 * i)))
      (fun e _ => SpawnStop s cur 1 e) s := by
  have hpos : 0 < s.kernel.nextpid := Nat.zero_lt_of_lt (h.inv.pids.lt cur)
  refine wp_mono (both_right (round_spec hpos) (forkRound_spec h hj)) ?_ ?_
  · rintro b t' ⟨r, s', ⟨rfl, -, rfl⟩, hc, hkept, hself, hother⟩
    exact ⟨hc, hkept, by rw [hself, decide_eq_true_iff], hother⟩
  · rintro e _ ⟨-, he⟩
    exact he

omit [Layout] in
/-- One more entry is counted. -/
theorem children_succ {j : ℕ} (hsame : ∀ i < j, s'.int cur (uint (pids + 4 * i)) =
    s.int cur (uint (pids + 4 * i))) {b : Bool}
    (hb : s'.int cur (uint (pids + 4 * j)) ≠ -1 ↔ b = true) :
    s'.children cur (j + 1) pids = s.children cur j pids + if b = true then 1 else 0 := by
  have hfilter : ((Finset.range j).filter fun i => s'.int cur (uint (pids + 4 * i)) ≠ -1) =
      (Finset.range j).filter fun i => s.int cur (uint (pids + 4 * i)) ≠ -1 :=
    Finset.filter_congr fun i hi => by rw [hsame i (Finset.mem_range.mp hi)]
  unfold Sys.children
  rw [Finset.range_add_one, Finset.filter_insert, hfilter]
  by_cases hne : s'.int cur (uint (pids + 4 * j)) ≠ -1
  · rw [if_pos hne, if_pos (hb.mp hne), Finset.card_insert_of_notMem]
    exact fun hmem => Nat.lt_irrefl j (Finset.mem_range.mp (Finset.mem_filter.mp hmem).1)
  · rw [if_neg hne, if_neg fun hbt => hne (hb.mpr hbt), add_zero]

/-- The loop counts the entries that are not -1. -/
theorem spawnLoop_spec (left : ℕ) : ∀ (j : ℕ) (allocated : ℤ) (s : Sys), j + left = n →
    allocated = s.children cur j pids → Caller x s cur n pids →
    wp (spawnLoop cur pids left j allocated) (fun r s' => r = s'.children cur n pids)
      (fun e _ => SpawnStop s cur left e) s := by
  induction left with
  | zero =>
    intro j allocated s hj ha _
    obtain rfl : j = n := hj
    exact ha
  | succ left ih =>
    intro j allocated s hj ha h
    unfold spawnLoop
    rw [wp_bind]
    refine wp_mono (spawnRound_spec h (by omega)) (fun b s₁ h₁ => ?_) fun e _ he =>
      he.mono rfl rfl (by omega)
    obtain ⟨hc, ⟨hd, hp, hn⟩, hself, hother⟩ := h₁
    have hcount := children_succ (fun i hi => hother i (by omega) (by omega)) hself
    have hstop : ∀ e, SpawnStop s₁ cur left e → SpawnStop s cur (left + 1) e := fun e he =>
      he.mono hd hp (by omega)
    cases b with
    | true =>
      refine wp_mono (ih (j + 1) _ s₁ (by omega) ?_ hc) (fun _ _ hr => hr) fun e _ he => hstop e he
      rw [hcount, if_pos rfl, ha, Nat.cast_add, Nat.cast_one]
    | false =>
      refine wp_mono (ih (j + 1) _ s₁ (by omega) ?_ hc) (fun _ _ hr => hr) fun e _ he => hstop e he
      rw [hcount, if_neg Bool.false_ne_true, ha, add_zero]

/-- `spawn` leaves the state that the loop of `fork` leaves, and returns the number of entries of
the array that are not -1, or -1 if there are none. -/
theorem spawn_as_forks (x : Ledger ℕ) (s : Sys) (cur : ProcPtr) (n : ℤ) (pids : ℕ) :
    (0 < s.kernel.nextpid →
      both (forks cur n pids) (spawn cur n pids) (fun _ s' _ t' => t' = s') s s) ∧
    (Caller x s cur n.toNat pids → wp (spawn cur n pids) (fun r s' =>
      r = if s'.children cur n.toNat pids = 0 then -1 else (s'.children cur n.toNat pids : ℤ))
      (fun e _ => SpawnStop s cur n.toNat e) s) := by
  refine ⟨fun hpos => spawn_spec hpos n pids, fun h => ?_⟩
  unfold spawn
  rw [wp_bind]
  refine wp_mono (spawnLoop_spec n.toNat 0 0 s (Nat.zero_add _) rfl h) (fun r s' hr => ?_)
    fun _ _ he => he
  subst hr
  simp only [Nat.cast_eq_zero, wp_ite, wp_pure]
  exact ⟨fun h0 => (if_pos h0).symm, fun h0 => (if_neg h0).symm⟩

end Caller

/-- `init` can call `spawn` when it has been started. -/
theorem exists_caller : letI := sampleLayout
    ∃ s : Sys, Reachable tree anyOp s.kernel ∧ Caller 0 s initSlot 2 0 := by
  let L := sampleLayout
  obtain ⟨k, hk, hb⟩ := boot_ok (κ := Kmem) sample_fits
  obtain ⟨d, hd, hi, -⟩ := hb.dir
  have hrun : (k.proc initSlot).state = .RUNNABLE := by
    rw [hb.table]
    simp
  obtain ⟨-, f, -, hf, -⟩ := hb.inv.live initSlot hb.live
  have hs := step_sched (T := tree) hrun hd (by simp [hf])
  have hinv := (CommonEffect.sched (x := 0) hrun hd).inv shape_eager (hb.invOf shape_eager)
  have hdir : Function.update k.pgdir initSlot (some d.flush) initSlot = some d.flush :=
    Function.update_self ..
  refine ⟨⟨_, fun _ => {}, fun _ _ => none, fun _ => some 0, fun _ => [], fun _ => 0, fun _ => 1⟩,
    .step (.boot hk) hs trivial, hinv, ?_, congrArg Proc.state (Table.set_self ..),
    ⟨fun _ _ h => (by cases h), (Option.some_ne_none 0)⟩, ?_, fun d' hd' a h₁ h₂ => ?_⟩
  · exact hb.nextpid.le.trans (by decide)
  · exact (show 0 + 4 * 2 ≤ PGSIZE by decide).trans
      ((congrArg Proc.sz (Table.set_self ..)).trans hb.sz).ge
  · obtain rfl := Option.some.inj (hdir.symm.trans hd')
    have ha : a / 4096 = 0 := by omega
    rw [ha]
    exact ⟨(hi.low 0 Nat.one_pos).1, (hi.low 0 Nat.one_pos).2.1⟩

theorem spawn_as_forks_started : ∃ (_ : Layout) (s : Sys), Reachable tree anyOp s.kernel ∧
    both (forks initSlot 2 0) (spawn initSlot 2 0) (fun _ s' _ t' => t' = s') s s ∧
    wp (spawn initSlot 2 0) (fun r s' => r = if s'.children initSlot 2 0 = 0 then -1
      else (s'.children initSlot 2 0 : ℤ)) (fun e _ => SpawnStop s initSlot 2 e) s := by
  let L := sampleLayout
  obtain ⟨s, hr, hc⟩ := exists_caller
  have h := spawn_as_forks 0 s initSlot 2 0
  exact ⟨L, s, hr, h.1 (Nat.zero_lt_of_lt (hc.inv.pids.lt initSlot)), h.2 hc⟩

end OsLabs.Eager
