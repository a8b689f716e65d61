import OsLabs.Spaces.Paged
import OsLabs.Spaces.Trim
import OsLabs.Lazy.System

/-!
# The lazy kernel keeps private address spaces

A page that `mmap` has marked shows zeros, and its frame comes with the first access or, in a child,
with the first access of the child.

* `MappedOk`: the address spaces of the lazy kernel where no present page is beyond the end;
* `AccessEffect.shown`: the state in which the access succeeds, after one fault at most;
* `step_spaces`: an operation does what `Spaces.stepPaged` says, or a frame was missing; the kernel
  stops only where the missing frame was for a lazy page (`Short`).
-/

namespace OsLabs.Lazy

open Xv6 StateError Ledger
open Base (Kmem)

/-- An address space of this tree, with its end and its rights. -/
structure MappedOk (sz : ℕ) (d : Pgdir) : Prop extends LazyOk sz d, Trim sz d

theorem shape_mapped [Layout] : Shape Kmem MappedOk where
  bounded h := h.toLazyOk.bounded
  flush h := ⟨⟨h.lt, h.ent⟩, h.tight, h.writable⟩
  image hsz hi := ⟨.image hsz hi, .image hi⟩
  sbrk h he := ⟨h.toLazyOk.sbrk he, h.toTrim.sbrk he⟩

theorem shows_lazy {κ : Type} {s : Phys κ} {e : Pte} (hP : e.P = false) (hL : e.LAZY = true) :
    e.shows s = some zeroPage := by
  simp [Pte.shows, hP, hL]

section Copy

variable [Layout] {r : Ledger ℕ} {s s' : Phys Kmem} {d : Pgdir} {sz : ℕ}

/-- `copyuvm` leaves the parent alone and makes a child that shows the same. -/
theorem CopyEffect.shows (hok : ∀ v, EntryOk v (d.ent v)) {res : Option Pgdir × Pgdir}
    (h : CopyEffect d sz r s res s') (ho : s'.oom = false) :
    Keeps r s s' ∧ res.2.shows s' sz = d.shows s sz ∧
      ∃ c, res.1 = some c ∧ c.shows s' sz = d.shows s sz := by
  cases h with
  | @copied c₀ c _ hz hker hcov hc hk ho' hlen =>
    refine ⟨hk.left, d.shows_keeps hk.right fun f => ?_, c, rfl, Pgdir.shows_congr fun v hv _ => ?_⟩
    · simp only [Pgdir.holds, refs_add]
      omega
    · cases hL : (d.ent v).LAZY with
      | true => rw [hc.marked v hv hL, shows_lazy ((hok v).excl hL) hL, shows_lazy rfl rfl]
      | false =>
        obtain ⟨-, hfl, hm⟩ := hc.copy v hv hL
        simp only [Pte.shows, hfl, hm]
  | failed hshort hk ho' =>
    rw [ho'] at ho
    cases ho

end Copy

section System

variable [Layout] {k k' : Kernel Kmem} {p : ProcPtr} {d : Pgdir} {va v : ℕ} {pg : Page}

theorem lazy_of_mapped (h : InvOf MappedOk 0 k) : InvOf LazyOk 0 k :=
  ⟨h.acct, fun q hq => by
    obtain ⟨d, f, hd, hf, hok⟩ := h.live q hq
    exact ⟨d, f, hd, hf, hok.toLazyOk⟩, h.pids⟩

/-- A page that is seen is present, the user's and writable, or it is lazy. -/
theorem seen_of_mapped (h : InvOf MappedOk 0 k) (hl : k.live p) (hd : k.pgdir p = some d)
    (hs : k.spaces.mem p v = some pg) : v < pages (k.proc p).sz ∧ v < UPAGES ∧
      ((d.ent v).P = true ∧ (d.ent v).U = true ∧ (d.ent v).W = true ∧
          k.phys.mem (d.ent v).ppn = pg ∨
        (d.ent v).P = false ∧ (d.ent v).LAZY = true ∧ pg = zeroPage) := by
  have hok := (h.of_live hl hd).2
  rw [Kernel.spaces_mem hl hd] at hs
  unfold Pgdir.shows Pte.shows at hs
  split_ifs at hs with hv hPU hL
  · exact ⟨hv.1, hv.2, Or.inl ⟨hPU.1, hPU.2, hok.writable v hv.2 hPU.1, Option.some.inj hs⟩⟩
  · exact ⟨hv.1, hv.2, Or.inr ⟨(hok.ent v).excl hL, hL, (Option.some.inj hs).symm⟩⟩

/-! ## Accesses -/

omit [Layout] in
/-- The handler puts a page of zeros where zeros were shown. -/
theorem shows_fault {r : Ledger ℕ} {s s' : Phys Kmem} {sz mem : ℕ} {d' : Pgdir}
    (hmem : (r + d.holds) mem = 0) (hm : s'.mem = (s.fill mem zeroPage).mem)
    (hP : (d.ent v).P = false) (hL : (d.ent v).LAZY = true)
    (hr : Replaced d d' v { P := true, W := true, U := true, ppn := mem }) :
    d'.flush.shows s' sz = d.shows s sz := by
  have hk : Keeps (r + d.holds) s s' :=
    (Keeps.fill zeroPage hmem).trans (.of_mem_eq hm)
  refine Pgdir.shows_congr fun w _ hu => ?_
  rw [Pgdir.ent_flush, hr.ent]
  by_cases hw : w = v
  · rw [if_pos hw, Pte.shows_of_P rfl rfl, hw, shows_lazy hP hL, hm, Phys.fill_mem_self]
  · rw [if_neg hw]
    refine Pte.shows_congr fun hPw => hk _ ?_
    have h₁ := Pgdir.refs_uses_pos hu hPw
    rw [← refs_pos, refs_add, Pgdir.holds, refs_add]
    omega

/-- An access to a page that is seen ends in a state where the page is present, before or after the
fault, or memory has run out. -/
theorem AccessEffect.shown (h : InvOf MappedOk 0 k) (hw : k.spaces.Paged) (hl : k.live p)
    (hva : va < 2 ^ 32) (hs : k.spaces.mem p (va / 4096) = some pg) {w : Option UInt8}
    {res : Result} (he : AccessEffect 0 p va w k res k') (ho : k'.phys.oom = false) :
    ∃ k₁ d₁ n, AccessEnd kills p va w n k₁ res k' ∧ n ≤ 1 ∧ InvOf MappedOk 0 k₁ ∧ k₁.live p ∧
      k₁.spaces = k.spaces ∧ k₁.pgdir p = some d₁ ∧ (d₁.ent (va / 4096)).P = true ∧
      (d₁.ent (va / 4096)).U = true ∧ (d₁.ent (va / 4096)).W = true ∧
      k₁.phys.mem (d₁.ent (va / 4096)).ppn = pg := by
  obtain ⟨d, -, hd, -⟩ := h.live p hl
  obtain ⟨hv, hu, hcase⟩ := seen_of_mapped h hl hd hs
  cases he with
  | direct he =>
    rcases hcase with ⟨hP, hU, hW, hm⟩ | ⟨hP, hL, -⟩
    · exact ⟨k, d, 0, he, Nat.zero_le 1, h, hl, rfl, hd, hP, hU, hW, hm⟩
    · -- a lazy page lets nobody through, and the handler does not kill for it
      have hno : ∀ {write : Bool} {e : Pte}, ¬d.allows va write e := fun {write e} ha => by
        obtain ⟨rfl, hp⟩ := (Pgdir.allows_iff hva rfl).mp ha
        simp [Pte.permits, hP] at hp
      cases he with
      | load _ hd' ha =>
        obtain rfl := Option.some.inj (hd.symm.trans hd')
        exact absurd ha hno
      | store _ hd' ha =>
        obtain rfl := Option.some.inj (hd.symm.trans hd')
        exact absurd ha hno
      | killed hd' _ hk _ =>
        obtain rfl := Option.some.inj (hd.symm.trans hd')
        rw [kills, check_eq hva rfl, hL] at hk
        cases hk
  | @fault v _ d₀ d' s' _ hv' hd' hL hf ha he =>
    obtain rfl := Option.some.inj (hd.symm.trans hd')
    subst hv'
    have hP := ((h.of_live hl hd).2.ent _).excl hL
    have ho₁ : s'.oom = false := by
      cases he <;> exact ho
    cases hf with
    | @filled mem _ hv' hmem hfree hr hm ho' =>
      have hok := (h.of_live hl hd).2
      have hmapped : MappedOk (k.proc p).sz d' := by
        refine ⟨hok.toLazyOk.fault (.filled hv' hmem hfree hr hm ho'), fun w hge hw => ?_,
          fun w hw hPw => ?_⟩
        · rw [hr.ent, if_neg (by omega)]
          exact hok.tight w hge hw
        · rw [hr.ent] at hPw ⊢
          split
          · rfl
          · rename_i hne
            rw [if_neg hne] at hPw
            exact hok.writable w hw hPw
      have hkeep : Keeps (0 + k.rest p) k.phys s' :=
        ((Keeps.fill zeroPage hmem).trans (.of_mem_eq hm)).left
      have hself : (d'.flush).ent (va / 4096) = { P := true, W := true, U := true, ppn := mem } := by
        rw [Pgdir.ent_flush, hr.ent, if_pos rfl]
      refine ⟨_, d'.flush, 1, he, le_refl 1, h.setMem hl ha (shape_mapped.flush hmapped),
        (Kernel.live_setMem p).mpr hl,
        Kernel.spaces_setMem_same hl hd hkeep (shows_fault hmem hm hP hL hr), Kernel.setMem_self.2,
        by rw [hself], by rw [hself], by rw [hself], ?_⟩
      obtain ⟨hP', -⟩ | ⟨-, -, rfl⟩ := hcase
      · rw [hP] at hP'
        cases hP'
      · rw [hself]
        change s'.mem mem = _
        rw [hm, Phys.fill_mem_self]
    | spent => cases ho₁
    | beyond hge =>
      -- the size is a number of pages below `KERNBASE`, and so the last page is not one of them
      have hsz := hw.sz_lt p hl
      have hal := hw.aligned p hl
      change (k.proc p).sz < KERNBASE at hsz
      change (k.proc p).sz % PGSIZE = 0 at hal
      rw [KERNBASE_eq] at hsz
      rw [UPAGES_eq] at hge
      simp only [PGSIZE] at hal
      simp only [pages] at hv
      omega

/-- A read shows the byte. -/
theorem AccessEffect.load_spaces (h : InvOf MappedOk 0 k) (hw : k.spaces.Paged) (hl : k.live p)
    (hva : va < 2 ^ 32) {r res : Result} {a' : Spaces} (he : AccessEffect 0 p va none k res k')
    (ho : k'.phys.oom = false) (ha : k.spaces.load p va = some (r, a')) :
    InvOf MappedOk 0 k' ∧ res.seen = r ∧ res.faults ≤ 1 ∧ k'.spaces = a' := by
  obtain ⟨pg, hs, heq⟩ := Option.map_eq_some_iff.mp ha
  obtain ⟨rfl, rfl⟩ := Prod.mk.inj heq
  obtain ⟨k₁, d₁, n, he, hn, h₁, hl₁, hsame, hd₁, hP, hU, -, rfl⟩ := he.shown h hw hl hva hs ho
  obtain ⟨rfl, rfl⟩ := he.load_spaces hva rfl hd₁ hP hU
  exact ⟨h₁, rfl, hn, hsame⟩

/-- A write changes its byte and nothing else. -/
theorem AccessEffect.store_spaces (h : InvOf MappedOk 0 k) (hw : k.spaces.Paged) (hl : k.live p)
    (hva : va < 2 ^ 32) {b : UInt8} {r res : Result} {a' : Spaces}
    (he : AccessEffect 0 p va (some b) k res k') (ho : k'.phys.oom = false)
    (ha : k.spaces.store p va b = some (r, a')) :
    InvOf MappedOk 0 k' ∧ res.seen = r ∧ res.faults ≤ 1 ∧ k'.spaces = a' := by
  obtain ⟨pg, hs, heq⟩ := Option.map_eq_some_iff.mp ha
  obtain ⟨rfl, rfl⟩ := Prod.mk.inj heq
  obtain ⟨k₁, d₁, n, he, hn, h₁, hl₁, hsame, hd₁, hP, hU, hW, -⟩ := he.shown h hw hl hva hs ho
  have hs₁ : k₁.spaces.mem p (va / 4096) = some pg := by rw [hsame, hs]
  obtain ⟨hv, hu, -⟩ := seen_of_mapped h₁ hl₁ hd₁ hs₁
  have hinv := (he.same hl₁).inv h₁
  obtain ⟨rfl, -, hk⟩ := he.store_spaces (x := 0) hva rfl hl₁ hd₁ hv hu hP hU hW (h₁.acct.single _)
  rw [hsame] at hk
  exact ⟨hinv, rfl, hn, hk⟩

/-! ## The system call -/

/-- `mmap` marks pages beyond the end, where nothing is present, and they show zeros. -/
theorem MmapEffect.spaces (h : InvOf MappedOk 0 k) (hw : k.spaces.Paged) (hl : k.live p)
    (hd : k.pgdir p = some d) {n : ℤ} {r res : Result} {a' : Spaces}
    (he : MmapEffect 0 k p d n res k') (ha : k.spaces.mmap p n = some (r, a')) :
    InvOf MappedOk 0 k' ∧ res = r ∧ k'.spaces = a' := by
  have hok := (h.of_live hl hd).2
  have hproc : k.spaces.proc = k.proc := rfl
  have hal : (k.proc p).sz % PGSIZE = 0 := hw.aligned p hl
  unfold Spaces.mmap at ha
  rw [hproc] at ha
  simp only [PGSIZE] at hal
  cases he with
  | refused hbad =>
    rw [if_pos hbad] at ha
    obtain ⟨rfl, rfl⟩ := Prod.mk.inj (Option.some.inj ha)
    exact ⟨h, rfl, rfl⟩
  | @marked m s' d' hn hlt hm =>
    have h0 : ¬(n < 0 ∨ n % (PGSIZE : ℤ) ≠ 0) := by
      simp only [PGSIZE] at hn ⊢
      omega
    simp only [PGSIZE] at hn hlt hm
    rw [if_neg h0] at ha
    split_ifs at ha with hbig
    obtain ⟨rfl, rfl⟩ := Prod.mk.inj (Option.some.inj ha)
    have hto : ((k.proc p).sz + n).toNat = (k.proc p).sz + m * 4096 := by omega
    have hup := pages_le_UPAGES (show (k.proc p).sz + m * 4096 ≤ KERNBASE by omega)
    have hlo : (k.proc p).sz / 4096 = pages (k.proc p).sz := by
      simp only [pages]
      omega
    have hhi : (k.proc p).sz / 4096 + m = pages ((k.proc p).sz + m * 4096) := by
      simp only [pages]
      omega
    rw [hhi, hlo] at hm
    obtain ⟨x', hacct, hx⟩ := hm.acct
    obtain rfl : x' = 0 := hx fun w h₁ h₂ => hok.tight w h₁ (by omega)
    have hent := hm.marked.ent
    refine ⟨h.setMem hl hacct ⟨hok.toLazyOk.marked hlt hm.marked, fun w hge hw => ?_,
      fun w hw hP => ?_⟩, rfl, ?_⟩
    · have hle := pages_mono (show (k.proc p).sz ≤ (k.proc p).sz + m * 4096 by omega)
      rw [PGSIZE] at hge
      rw [hent, if_neg (by omega)]
      exact hok.tight w (by omega) hw
    · rw [hent] at hP ⊢
      split at hP
      · cases hP
      · rename_i hout
        rw [if_neg hout]
        exact hok.writable w hw hP
    · rw [hto, PGSIZE, Kernel.spaces_setMem (r := 0) hl (.of_mem_eq hm.mem), Kernel.spaces_mem hl hd]
      congr 1
      funext v
      unfold Memory.extend
      by_cases hin : pages (k.proc p).sz ≤ v ∧ v < pages ((k.proc p).sz + m * 4096)
      · rw [if_pos hin, Pgdir.shows_of_lt hin.2 (by omega), hent, if_pos hin, shows_lazy rfl rfl]
      · have hle := pages_mono (show (k.proc p).sz ≤ (k.proc p).sz + m * 4096 by omega)
        rw [if_neg hin]
        by_cases hv : v < pages (k.proc p).sz
        · have hv' : v < pages ((k.proc p).sz + m * 4096) := by omega
          have hu : v < UPAGES := by omega
          rw [Pgdir.shows_of_lt hv' hu, Pgdir.shows_of_lt hv hu, hent, if_neg hin]
          exact Pte.shows_congr fun _ => by rw [hm.mem]
        · have hv' : pages ((k.proc p).sz + m * 4096) ≤ v := by omega
          rw [Pgdir.shows_of_ge hv', Pgdir.shows_of_ge (Nat.le_of_not_lt hv)]
  | wrapped hn hnew =>
    have h0 : ¬(n < 0 ∨ n % (PGSIZE : ℤ) ≠ 0) := by
      simp only [PGSIZE] at hn ⊢
      omega
    have hbig : (KERNBASE : ℤ) ≤ (k.proc p).sz + n := by
      rw [KERNBASE_eq]
      simp only [PGSIZE] at hn hnew
      omega
    rw [if_neg h0, if_pos hbig] at ha
    cases ha

/-! ## One operation -/

/-- Every operation other than `mmap` does what it should, or memory has run out. -/
theorem Effect.spaces (h : InvOf MappedOk 0 k) (hw : k.spaces.Paged) {op : Op} {r res : Result}
    {a' : Spaces} (he : Effect 0 k op res k') (ho : k'.phys.oom = false)
    (ha : k.spaces.stepPaged op = some (r, a')) :
    InvOf MappedOk 0 k' ∧ res.seen = r ∧ res.faults ≤ 1 ∧ k'.spaces = a' := by
  have huint : ∀ va, uint va < 2 ^ 32 := fun va => Nat.mod_lt _ (by decide)
  obtain ⟨hseen, hfaults, -⟩ := Spaces.stepPaged_result ha
  cases he with
  | common hc =>
    by_cases hop : ∃ p n, op = .mmap p n
    · obtain ⟨p, n, rfl⟩ := hop
      cases hc with
      | disabled hp =>
        obtain ⟨-, rfl, rfl⟩ := (Spaces.whenRunning_eq_some ha).resolve_left fun hc => hp hc.1
        exact ⟨h, rfl, Nat.zero_le 1, rfl⟩
    · have ha' := Spaces.stepPaged_of_ne (fun p n e => hop ⟨p, n, e⟩) ha
      obtain ⟨rfl, hk⟩ := hc.spaces hw.toWhole ho ha'
      exact ⟨hc.inv shape_mapped h, hseen, by omega, hk⟩
  | @fork p d _ _ hp hd hf =>
    have hl := live_of_running hp
    have hok := (h.of_live hl hd).2
    obtain ⟨rfl, hk⟩ := hf.spaces hl hd (CopyEffect.shows hok.ent) ho (Spaces.of_running hp ha)
    refine ⟨hf.inv h hl shape_mapped.flush fun r s res s' hc => ?_, hseen, by omega, hk⟩
    cases hc with
    | copied hz hker hcov hc hk ho hlen =>
      exact ⟨hok, fun d₂ h₂ => Option.some.inj h₂ ▸
        ⟨hok.toLazyOk.child hz hker hc, hok.toTrim.child hz hc⟩⟩
    | failed => exact ⟨hok, fun d₂ h₂ => by cases h₂⟩
  | @mmap p n d _ _ hp hd hm =>
    obtain ⟨hinv, rfl, hk⟩ := hm.spaces h hw (live_of_running hp) hd (Spaces.of_running hp ha)
    exact ⟨hinv, hseen, by omega, hk⟩
  | load hp he =>
    exact he.load_spaces h hw (live_of_running hp) (huint _) ho (Spaces.of_running hp ha)
  | store hp he =>
    exact he.store_spaces h hw (live_of_running hp) (huint _) ho (Spaces.of_running hp ha)

/-- A frame is missing for a lazy page: for the page itself, for its copies' tables in a child, or
for the page tables of the pages that `mmap` marks. -/
def Short (k : Kernel Kmem) : Op → Prop
  | .load p va | .store p va _ => k.phys.free = [] ∧
      ∃ d, k.pgdir p = some d ∧ (d.ent (uint va / 4096)).LAZY = true
  | .fork p => ∃ d, k.pgdir p = some d ∧
      k.phys.free.length < need d (pages (k.proc p).sz) + 66 ∧
      ∃ v < pages (k.proc p).sz, (d.ent v).LAZY = true
  | .mmap p n => ∃ d m, k.pgdir p = some d ∧ argint n = (m * PGSIZE : ℕ) ∧
      k.phys.free.length <
        (missing d ((k.proc p).sz / PGSIZE) ((k.proc p).sz / PGSIZE + m)).card
  | _ => False

/-- An operation within what the processes are promised stops only where a frame is missing for a
lazy page. -/
theorem short_of_stop (h : InvOf MappedOk 0 k) (hw : k.spaces.Paged) {op : Op} {e : Panic}
    {r : Result} {a' : Spaces} (ha : k.spaces.stepPaged op = some (r, a'))
    (hs : step tree op k = .error e k') (he : Stop k op e) : Short k op := by
  have hrun : ∀ {p : ProcPtr} {m : KM Kmem Result} {o : Option (Result × Spaces)},
      Xv6.whenRunning p m k = .error e k' → k.spaces.whenRunning p o = some (r, a') →
      (k.proc p).state = .RUNNING ∧ o = some (r, a') := fun hs h =>
    ⟨running_of_error hs, Spaces.of_running (running_of_error hs) h⟩
  have haccess : ∀ {p : ProcPtr} {va : ℕ} {α : Type} {f : Page → α} {y : α} {write : Bool},
      (k.proc p).state = .RUNNING → (k.spaces.mem p (va / 4096)).map f = some y → va < 2 ^ 32 →
      AccessStop k p va write e → k.phys.free = [] ∧
        ∃ d, k.pgdir p = some d ∧ (d.ent (va / 4096)).LAZY = true := by
    rintro p va α f y write hp hm hva ⟨-, -, d, hd, hno, hfree⟩
    have hl := live_of_running hp
    obtain ⟨pg, hs, -⟩ := Option.map_eq_some_iff.mp hm
    obtain ⟨hv, -, ⟨hP, hU, hW, -⟩ | ⟨-, hL, -⟩⟩ := seen_of_mapped h hl hd hs
    · refine absurd ((Pgdir.exists_allows hva rfl).mpr ?_) hno
      simp [Pte.permits, hP, hU, hW]
    · refine ⟨(hfree hL).resolve_right fun hge => ?_, d, hd, hL⟩
      have hsz : (k.proc p).sz < KERNBASE := hw.sz_lt p hl
      have hal : (k.proc p).sz % PGSIZE = 0 := hw.aligned p hl
      rw [KERNBASE_eq] at hsz
      rw [UPAGES_eq] at hge
      simp only [PGSIZE] at hal
      simp only [pages] at hv
      omega
  have huint : ∀ va, uint va < 2 ^ 32 := fun va => Nat.mod_lt _ (by decide)
  cases op with
  | fork p =>
    obtain ⟨hp, hf⟩ := hrun hs ha
    have hl := live_of_running hp
    obtain ⟨hnone, ⟨-, hpid⟩ | ⟨d, n, hd, hlen, v, hv, -, hle, hstop⟩⟩ := he
    · exact absurd hpid (Spaces.fork_pid hf hnone)
    · -- every page below the size is seen
      obtain ⟨pg, hs⟩ := Option.ne_none_iff_exists'.mp ((hw.mem p hl v).mpr hv)
      obtain ⟨-, hu, hcase⟩ := seen_of_mapped h hl hd hs
      rcases hstop with ⟨-, hcov⟩ | ⟨-, hge, -⟩ | ⟨-, -, hmod, hL, hneed⟩
      · exact absurd (hcase.imp And.left fun hc => hc.2.1) hcov
      · omega
      · have h₁ := @need_add_succ d v hu hmod
        have h₂ := @need_mono d (v + 1) (pages (k.proc p).sz) hv
        exact ⟨d, hd, by omega, v, hv, hL⟩
  | mmap p n =>
    obtain ⟨hp, hf⟩ := hrun hs ha
    obtain ⟨d, hd, m, hn, -, ⟨-, hfree⟩ | ⟨-, hker⟩⟩ := he
    · exact ⟨d, m, hd, by rw [hn]; push_cast; rfl, hfree⟩
    · have h0 : ¬(argint n < 0 ∨ argint n % (PGSIZE : ℤ) ≠ 0) := by
        simp only [PGSIZE] at hn ⊢
        omega
      have hbig : (KERNBASE : ℤ) ≤ (k.spaces.proc p).sz + argint n := by
        change (KERNBASE : ℤ) ≤ (k.proc p).sz + argint n
        rw [KERNLINK_PGSIZE] at hker
        rw [KERNBASE_eq]
        simp only [PGSIZE] at hn hker
        omega
      rw [Spaces.mmap, if_neg h0, if_pos hbig] at hf
      cases hf
  | load p va =>
    obtain ⟨hp, hf⟩ := hrun hs ha
    exact haccess hp hf (huint va) he
  | store p va b =>
    obtain ⟨hp, hf⟩ := hrun hs ha
    exact haccess hp hf (huint va) he
  | sbrk p n =>
    obtain ⟨hp, -⟩ := hrun hs (Spaces.stepPaged_of_ne (fun _ _ e => by cases e) ha)
    have hl := live_of_running hp
    obtain ⟨d, hd, ⟨-, v, hge, hv, hP⟩ | ⟨-, hover⟩⟩ := he
    · rw [(h.of_live hl hd).2.tight v hge hv] at hP
      cases hP
    · have hsz : (k.proc p).sz < KERNBASE := hw.sz_lt p hl
      exact absurd hover (Pgdir.not_overlaps (le_of_lt hsz))
  | exit p =>
    obtain ⟨hp, hf⟩ := hrun hs ha
    exact absurd he.2 (Spaces.exit_ne hf)
  | sched | yield | wait => exact he.elim
  | exec | kalloc | kfree => cases ha

/-- Every operation does what it should after one fault at most, or memory has run out. -/
theorem step_spaces (h : InvOf MappedOk 0 k) (hw : k.spaces.Paged) {op : Op} {r : Result}
    {a' : Spaces} (ha : k.spaces.stepPaged op = some (r, a')) :
    wp (step tree op) (fun res k' => k'.phys.oom = false → InvOf MappedOk 0 k' ∧ res.seen = r ∧
      res.faults ≤ 1 ∧ k'.spaces = a') (fun _ _ => Short k op) k :=
  wp_mono (wp_and (step_spec (lazy_of_mapped h) op) (wp_eq _ _))
    (fun _ _ he ho => he.1.spaces h hw ho ha) fun _ _ he => short_of_stop h hw ha he.2 he.1

end System

end OsLabs.Lazy
