import OsLabs.Spaces.Machine

/-!
# Address spaces that `mmap` extends

The machine of `Spaces.step` with the system call `mmap`, and with sizes that are a number of pages:
`stepPaged` is undefined where `sbrk` moves by less than a page or `mmap` would reach `KERNBASE`.

* `Paged.step`: processes stay whole and sizes stay a number of pages;
* `mmap_eq_sbrk`: where its argument is accepted, `mmap` is `sbrk`.
-/

namespace OsLabs.Xv6

namespace Spaces

variable (a : Spaces) (p : ProcPtr)

/-- Pages of zeros behind the end of the process; an argument that is negative or not a number of
pages is refused. -/
def mmap (n : ℤ) : Option (Result × Spaces) :=
  if n < 0 ∨ n % PGSIZE ≠ 0 then some (.ret 0, a)
  else if (KERNBASE : ℤ) ≤ (a.proc p).sz + n then none
  else
    some (.ret (a.proc p).sz, a.resize p ((a.proc p).sz + n).toNat
      ((a.mem p).extend (pages (a.proc p).sz) (pages ((a.proc p).sz + n).toNat)))

/-- One operation on memories of whole pages. -/
def stepPaged : Op → Option (Result × Spaces)
  | .mmap p n => a.whenRunning p (a.mmap p (argint n))
  | .sbrk p n => if argint n % PGSIZE = 0 then a.step (.sbrk p n) else none
  | op => a.step op

/-- Every process is whole, and its size is a number of pages. -/
structure Paged : Prop extends a.Whole where
  aligned : ∀ p, a.live p → (a.proc p).sz % PGSIZE = 0

variable {a p} {a' : Spaces} {op : Op} {res : Result} {n : ℤ}

/-- The operations other than `mmap` are those of the machine. -/
theorem stepPaged_of_ne (hop : ∀ p n, op ≠ .mmap p n) (h : a.stepPaged op = some (res, a')) :
    a.step op = some (res, a') := by
  cases op with
  | mmap p n => exact absurd rfl (hop p n)
  | sbrk p n =>
    dsimp only [stepPaged] at h
    split_ifs at h
    exact h
  | _ => exact h

/-- An accepted argument that keeps the process below `KERNBASE`. -/
theorem mmap_eq_sbrk (h0 : ¬(n < 0 ∨ n % PGSIZE ≠ 0)) (h : a.mmap p n = some (res, a')) :
    a.sbrk p n = some (res, a') := by
  unfold mmap at h
  rw [if_neg h0] at h
  split_ifs at h with hbig
  unfold sbrk
  by_cases hn : n = 0
  · subst hn
    rw [Int.add_zero, Int.toNat_natCast, Memory.extend_self, resize_self,
      Function.update_eq_self] at h
    rw [if_pos rfl]
    exact h
  · rw [if_neg hn, if_neg hbig, if_pos (by omega)]
    exact h

/-- There are no faults to count, and nobody is killed. -/
theorem stepPaged_result (h : a.stepPaged op = some (res, a')) :
    res.seen = res ∧ res.faults = 0 ∧ res ≠ .killed := by
  by_cases hop : ∃ p n, op = .mmap p n
  · obtain ⟨p, n, rfl⟩ := hop
    rcases whenRunning_eq_some h with ⟨-, h⟩ | ⟨-, rfl, -⟩
    · unfold mmap at h
      split_ifs at h
      all_goals
        obtain ⟨rfl, -⟩ := Prod.mk.inj (Option.some.inj h)
        exact ⟨rfl, rfl, nofun⟩
    · exact ⟨rfl, rfl, nofun⟩
  · exact step_result (stepPaged_of_ne (fun p n e => hop ⟨p, n, e⟩) h)

namespace Paged

theorem resize (h : a.Paged) {sz : ℕ} {m : Memory} (hw : (a.resize p sz m).Whole)
    (hsz : a.live p → sz % PGSIZE = 0) : (a.resize p sz m).Paged := by
  refine ⟨hw, fun q hq => ?_⟩
  by_cases hqp : q = p
  · subst hqp
    simp only [live, Spaces.resize, Table.set_self] at hq ⊢
    exact hsz hq
  · simp only [live, Spaces.resize, Table.set_ne _ _ hqp] at hq ⊢
    exact h.aligned q hq

theorem mmap (h : a.Paged) (hl : a.live p) (hs : a.mmap p n = some (res, a')) : a'.Paged := by
  have ha := h.aligned p hl
  unfold Spaces.mmap at hs
  split_ifs at hs with h0 hbig
  · obtain ⟨-, rfl⟩ := Prod.mk.inj (Option.some.inj hs)
    exact h
  · obtain ⟨-, rfl⟩ := Prod.mk.inj (Option.some.inj hs)
    simp only [PGSIZE] at h0 ha
    refine h.resize (h.toWhole.resize (by omega) ?_) fun _ => ?_
    · exact Memory.extend_ne_none (h.mem p hl) (pages_mono (by omega))
    · simp only [PGSIZE]
      omega

/-- A change that leaves sizes a number of pages. -/
theorem change (h : a.Paged) (hw : a'.Whole) (hc : Change a op a')
    (hop : ∀ p n, op = .sbrk p n → argint n % PGSIZE = 0) : a'.Paged := by
  cases hc with
  | table hsz hst hact =>
    refine ⟨hw, fun q hq => ?_⟩
    dsimp only
    rw [hsz]
    exact h.aligned q fun e => hq ((hst q).mpr e)
  | @mem p sz m hactor hl hsz hm =>
    refine h.resize hw fun _ => ?_
    have ha := h.aligned p hl
    rcases hsz with rfl | ⟨n, rfl, hsz⟩
    · exact ha
    · have hn := hop p n rfl
      simp only [PGSIZE] at ha hn ⊢
      omega
  | @born p q f hl hq hsz =>
    refine ⟨hw, fun j hj => ?_⟩
    by_cases hjq : j = q
    · subst hjq
      simp only [Table.set_self, hsz]
      exact h.aligned p hl
    · simp only [live, Table.set_ne _ _ hjq] at hj ⊢
      exact h.aligned j hj
  | @reaped q hq =>
    refine ⟨hw, fun j hj => ?_⟩
    have hjq : j ≠ q := fun e => by
      rw [e] at hj
      exact hj (by simp [Table.reap])
    simp only [live, Table.reap, Table.set_ne _ _ hjq] at hj ⊢
    exact h.aligned j hj

/-- Every step keeps processes whole and their sizes a number of pages. -/
theorem step (h : a.Paged) (hs : a.stepPaged op = some (res, a')) : a'.Paged := by
  by_cases hop : ∃ p n, op = .mmap p n
  · obtain ⟨p, n, rfl⟩ := hop
    rcases whenRunning_eq_some hs with ⟨hp, hs⟩ | ⟨-, -, rfl⟩
    · exact h.mmap (by simp [live, hp]) hs
    · exact h
  · have hs' := stepPaged_of_ne (fun p n e => hop ⟨p, n, e⟩) hs
    refine h.change (h.toWhole.step hs') (step_change hs') fun p n e => ?_
    subst e
    dsimp only [stepPaged] at hs
    split_ifs at hs with hn
    exact hn

end Paged

end Spaces

end OsLabs.Xv6
