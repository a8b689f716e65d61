import OsLabs.Xv6.Proc
import OsLabs.Xv6.Image

/-!
# `exec`

`exec.c`: the program headers and the segments come from a file, the arguments from the caller;
both are arbitrary. `exec_spec`: a call either leaves every frame that was held with its contents
and gives back all it took, or replaces the directory of the process by a new image and gives the
old one back.
-/

namespace OsLabs.Xv6

open StateError Ledger

/-- The little-endian word at offset `i` of `bs`. -/
def word (bs : List UInt8) (i : ℕ) : ℕ :=
  (bs.getD i 0).toNat + (bs.getD (i + 1) 0).toNat * 2 ^ 8 + (bs.getD (i + 2) 0).toNat * 2 ^ 16 +
    (bs.getD (i + 3) 0).toNat * 2 ^ 24

/-- The little-endian half word at offset `i` of `bs`. -/
def half (bs : List UInt8) (i : ℕ) : ℕ := (bs.getD i 0).toNat + (bs.getD (i + 1) 0).toNat * 2 ^ 8

/-- The four bytes of a `uint`. -/
def bytes (n : ℕ) : List UInt8 :=
  [UInt8.ofNat n, UInt8.ofNat (n / 2 ^ 8), UInt8.ofNat (n / 2 ^ 16), UInt8.ofNat (n / 2 ^ 24)]

def ELF_MAGIC : ℕ := 0x464C457F
def ELF_PROG_LOAD : ℕ := 1
/-- `sizeof(struct elfhdr)` -/
def sizeofElfhdr : ℕ := 52
/-- `sizeof(struct proghdr)` -/
def sizeofProghdr : ℕ := 32

section Code

variable {κ : Type} [Kalloc κ] [Layout]

/-- The loop over the program headers, `n` of them from the offset `off` on. The flag is false
where the source goes to `bad`. -/
def execLoad (ip : Inode) : ℕ → ℕ → Pgdir → ℕ → K κ (Bool × Pgdir × ℕ)
  | 0, _, pgdir, sz => return (true, pgdir, sz)
  | n + 1, off, pgdir, sz => do
    let ph := readi ip off sizeofProghdr
    let vaddr := word ph 8
    let filesz := word ph 16
    let memsz := word ph 20
    if ph.length ≠ sizeofProghdr then return (false, pgdir, sz)
    else if word ph 0 ≠ ELF_PROG_LOAD then
      execLoad ip n (uint (off + sizeofProghdr)) pgdir sz
    else if memsz < filesz then return (false, pgdir, sz)
    else if uint (vaddr + memsz) < vaddr then return (false, pgdir, sz)
    else do
      let r ← allocuvm pgdir sz (uint (vaddr + memsz))
      if r.1 = 0 then return (false, r.2, r.1)
      else if vaddr % PGSIZE ≠ 0 then return (false, r.2, r.1)
      else if ← loaduvm r.2 vaddr ip (word ph 4) filesz then
        execLoad ip n (uint (off + sizeofProghdr)) r.2 r.1
      else return (false, r.2, r.1)

/-- The loop over the arguments, with the ones already pushed in `ustack`. -/
def execArgs (pgdir : Pgdir) : List (List UInt8) → ℕ → List ℕ → K κ (Option (ℕ × List ℕ))
  | [], sp, ustack => return some (sp, ustack)
  | arg :: argv, sp, ustack =>
    if ustack.length ≥ MAXARG then return none
    else do
      let sp := addInt sp (-(arg.length + 1)) / 4 * 4
      if ← copyout pgdir sp (arg ++ [0]) then execArgs pgdir argv sp (ustack ++ [sp])
      else return none

/-- Build the new image: the directory and the size, or, at `bad`, the directory to be freed. -/
def execImage (ip : Inode) (argv : List (List UInt8)) (pgdir : Pgdir) (phoff phnum : ℕ) :
    K κ (Option ℕ × Pgdir) := do
  let (ok, pgdir, sz) ← execLoad ip phnum phoff pgdir 0
  if !ok then return (none, pgdir)
  else do
    let sz := PGROUNDUP sz
    let r ← allocuvm pgdir sz (uint (sz + 2 * PGSIZE))
    if r.1 = 0 then return (none, r.2)
    else do
      let pgdir ← clearpteu r.2 (uint (r.1 + 2 ^ 32 - 2 * PGSIZE))
      match ← execArgs pgdir argv r.1 [] with
      | none => return (none, pgdir)
      | some (sp, args) => do
        let argc := args.length
        let ustack := 0xffffffff :: argc :: addInt sp (-((argc + 1) * 4)) :: args ++ [0]
        let sp := addInt sp (-((3 + argc + 1) * 4))
        if ← copyout pgdir sp (ustack.flatMap bytes) then return (some r.1, pgdir)
        else return (none, pgdir)

/-- Replace the image of `cur` by the program in the file `ip`, `none` where `namei` fails. -/
def exec (cur : ProcPtr) (ip : Option Inode) (argv : List (List UInt8)) : KM κ Result := do
  match ip with
  | none => return .ret (-1)
  | some ip =>
    let elf := readi ip 0 sizeofElfhdr
    if elf.length ≠ sizeofElfhdr then return .ret (-1)
    else if word elf 0 ≠ ELF_MAGIC then return .ret (-1)
    else do
      match ← onPhys setupkvm with
      | none => return .ret (-1)
      | some pgdir => do
        match ← onPhys (execImage ip argv pgdir (word elf 28) (half elf 44)) with
        | (none, pgdir) => do
          onPhys (freevm pgdir)
          return .ret (-1)
        | (some sz, pgdir) => do
          let oldpgdir := (← get).pgdir cur
          setPgdir cur (some pgdir)
          setProc cur fun q => { q with sz := sz }
          switchuvm cur
          match oldpgdir with
          | none => throw .freevm
          | some d => onPhys (freevm d)
          return .ret 0

end Code

theorem byte_lt (b : UInt8) : b.toNat < 256 := b.toNat_lt

theorem word_lt (bs : List UInt8) (i : ℕ) : word bs i < 2 ^ 32 := by
  have h₀ := byte_lt (bs.getD i 0)
  have h₁ := byte_lt (bs.getD (i + 1) 0)
  have h₂ := byte_lt (bs.getD (i + 2) 0)
  have h₃ := byte_lt (bs.getD (i + 3) 0)
  unfold word
  omega

theorem addInt_lt (sz : ℕ) (n : ℤ) : addInt sz n < 2 ^ 32 := by
  unfold addInt
  have := Int.emod_lt_of_pos (sz + n) (show (0 : ℤ) < 2 ^ 32 by decide)
  omega

section Spec

variable {κ : Type} [Kalloc κ] [Layout] [LawfulKalloc κ]
variable {dom : ℕ → Prop} {r : Ledger ℕ}

/-- Loading the segments of a program grows the image. -/
theorem execLoad_image (ip : Inode) (n : ℕ) : ∀ {off sz : ℕ} {s : Phys κ} {d : Pgdir},
    sz < KERNBASE → Image r d (pages sz) → Acct dom s.kmem (r + d.holds) →
    wp (execLoad ip n off d sz) (fun res s' => Acct dom s'.kmem (r + res.2.1.holds) ∧
      Keeps r s s' ∧ (res.1 = true → res.2.2 < KERNBASE ∧ Image r res.2.1 (pages res.2.2)))
      (fun _ _ => False) s := by
  induction n with
  | zero => exact fun hsz hi ha => ⟨ha, .refl _ _, fun _ => ⟨hsz, hi⟩⟩
  | succ n ih =>
    intro off sz s d hsz hi ha
    unfold execLoad
    set ph := readi ip off sizeofProghdr
    have hbad : ∀ {d' : Pgdir} {sz' : ℕ} {s' : Phys κ}, Acct dom s'.kmem (r + d'.holds) →
        Keeps r s s' → wp (pure (false, d', sz') : K κ _) (fun res s' =>
          Acct dom s'.kmem (r + res.2.1.holds) ∧ Keeps r s s' ∧
          (res.1 = true → res.2.2 < KERNBASE ∧ Image r res.2.1 (pages res.2.2)))
          (fun _ _ => False) s' := fun ha hk => ⟨ha, hk, by simp⟩
    dsimp only
    by_cases h₁ : ph.length ≠ sizeofProghdr
    · rw [if_pos h₁]
      exact hbad ha (.refl _ _)
    rw [if_neg h₁]
    by_cases h₂ : word ph 0 ≠ ELF_PROG_LOAD
    · rw [if_pos h₂]
      exact ih hsz hi ha
    rw [if_neg h₂]
    by_cases h₃ : word ph 20 < word ph 16
    · rw [if_pos h₃]
      exact hbad ha (.refl _ _)
    rw [if_neg h₃]
    by_cases h₄ : uint (word ph 8 + word ph 20) < word ph 8
    · rw [if_pos h₄]
      exact hbad ha (.refl _ _)
    rw [if_neg h₄]
    have hwrap : uint (word ph 8 + word ph 20) = word ph 8 + word ph 20 := by
      have := word_lt ph 8
      have := word_lt ph 20
      simp only [uint] at h₄ ⊢
      omega
    rw [hwrap]
    simp only [wp_bind]
    refine wp_post (allocuvm_image hi ha) fun res s₁ h => ?_
    obtain ⟨ha₁, hk₁, -, hres⟩ := h
    by_cases h₅ : res.1 = 0
    · rw [if_pos h₅]
      exact hbad ha₁ hk₁
    rw [if_neg h₅]
    obtain ⟨hnew, hmax, hi₁⟩ := hres h₅
    have hsz₁ : res.1 < KERNBASE := by omega
    by_cases h₆ : word ph 8 % PGSIZE ≠ 0
    · rw [if_pos h₆]
      exact hbad ha₁ hk₁
    rw [if_neg h₆]
    simp only [wp_bind]
    have hfit : word ph 8 + word ph 16 ≤ pages res.1 * 4096 := by
      simp only [pages]
      omega
    refine wp_post (loaduvm_image hi₁ (pages_le_UPAGES (le_of_lt hsz₁)) (by simpa using h₆) hfit)
      fun ok s₂ h => ?_
    obtain ⟨hm₂, -, hk₂⟩ := h
    rw [← hm₂] at ha₁
    cases ok with
    | false => exact hbad ha₁ (hk₁.trans hk₂)
    | true => exact wp_post (ih hsz₁ hi₁ ha₁) fun _ s' h =>
        ⟨h.1, (hk₁.trans hk₂).trans h.2.1, h.2.2⟩

omit [Kalloc κ] [Layout] [LawfulKalloc κ] in
/-- Pushing the arguments writes the image only. -/
theorem execArgs_image {d : Pgdir} {n : ℕ} (hi : Image r d n) (argv : List (List UInt8)) :
    ∀ {sp : ℕ} {ustack : List ℕ} {s : Phys κ},
    wp (execArgs d argv sp ustack) (fun _ s' => s'.kmem = s.kmem ∧ Keeps r s s')
      (fun e _ => e = .nullDeref) s := by
  induction argv with
  | nil => exact fun {_ _ _} => ⟨rfl, .refl _ _⟩
  | cons arg argv ih =>
    intro sp ustack s
    unfold execArgs
    by_cases h : ustack.length ≥ MAXARG
    · rw [if_pos h]
      exact ⟨rfl, .refl _ _⟩
    rw [if_neg h]
    simp only [wp_bind]
    refine wp_post (copyout_image hi ?_) fun ok s₁ h₁ => ?_
    · have := addInt_lt sp (-(arg.length + 1))
      omega
    · cases ok with
      | false => exact ⟨h₁.1, h₁.2.2⟩
      | true => exact wp_post ih fun _ s' h' => ⟨h'.1.trans h₁.1, h₁.2.2.trans h'.2⟩

/-- A finished image, or the directory to be freed. -/
theorem execImage_image {ip : Inode} {argv : List (List UInt8)} {d : Pgdir} {phoff phnum : ℕ}
    {s : Phys κ} (hi : Image r d 0) (ha : Acct dom s.kmem (r + d.holds)) :
    wp (execImage ip argv d phoff phnum) (fun res s' => Acct dom s'.kmem (r + res.2.holds) ∧
      Keeps r s s' ∧ (∀ sz, res.1 = some sz → sz < KERNBASE ∧ sz % PGSIZE = 0 ∧ 0 < sz ∧
        Image r res.2 (pages sz)))
      (fun e _ => e = .nullDeref) s := by
  have hload := @execLoad_image _ _ _ _ _ _ ip phnum phoff 0 _ _ KERNBASE_pos hi ha
  unfold execImage
  simp only [wp_bind]
  refine wp_mono hload (fun res s₁ h => ?_) fun _ _ h => h.elim
  obtain ⟨ok, d₁, sz₁⟩ := res
  obtain ⟨ha₁, hk₁, hok⟩ := h
  dsimp only at ha₁ hk₁
  cases ok with
  | false => exact ⟨ha₁, hk₁, by simp⟩
  | true =>
    have hsz₁ : sz₁ < KERNBASE := (hok rfl).1
    have hi₁ : Image r d₁ (pages sz₁) := (hok rfl).2
    simp only [Bool.not_true, Bool.false_eq_true, if_false, wp_bind]
    have hround : PGROUNDUP sz₁ = pages sz₁ * 4096 := PGROUNDUP_eq (le_of_lt hsz₁)
    have hpages : pages (PGROUNDUP sz₁) = pages sz₁ := by
      rw [hround]
      simp only [pages]
      omega
    have hle : PGROUNDUP sz₁ ≤ KERNBASE := by
      have := pages_le_UPAGES (le_of_lt hsz₁)
      rw [UPAGES_eq] at this
      rw [hround, KERNBASE_eq]
      omega
    have hadd : uint (PGROUNDUP sz₁ + 2 * PGSIZE) = PGROUNDUP sz₁ + 8192 := by
      rw [KERNBASE_eq] at hle
      simp only [uint, PGSIZE]
      omega
    rw [← hpages] at hi₁
    generalize hn : uint (PGROUNDUP sz₁ + 2 * PGSIZE) = newsz at hadd ⊢
    refine wp_mono (allocuvm_image hi₁ ha₁) (fun res s₂ h => ?_) fun _ _ h => h.elim
    obtain ⟨ha₂, hk₂, -, hres⟩ := h
    by_cases h0 : res.1 = 0
    · rw [if_pos h0]
      exact ⟨ha₂, hk₁.trans hk₂, by simp⟩
    rw [if_neg h0]
    obtain ⟨hnew, hmax, hi₂⟩ := hres h0
    have hsz₂ : res.1 = PGROUNDUP sz₁ + 8192 := by omega
    have hpg := @pages_le_UPAGES res.1 (by omega)
    have huva : uint (res.1 + 2 ^ 32 - 2 * PGSIZE) / 4096 < pages res.1 := by
      rw [KERNBASE_eq] at hnew
      simp only [uint, PGSIZE, pages]
      omega
    simp only [wp_bind]
    refine wp_mono (clearpteu_image hi₂ hpg huva) (fun d₃ s₃ h => ?_) fun _ _ h => h.elim
    obtain ⟨hi₃, hh₃, rfl⟩ := h
    rw [← hh₃] at ha₂
    refine wp_post (execArgs_image hi₃ argv) fun args s₄ h => ?_
    obtain ⟨hm₄, hk₄⟩ := h
    rw [← hm₄] at ha₂
    have hk := (hk₁.trans hk₂).trans hk₄
    cases args with
    | none => exact ⟨ha₂, hk, by simp⟩
    | some args =>
      simp only [wp_bind]
      refine wp_post (copyout_image hi₃ (addInt_lt _ _)) fun ok s₅ h => ?_
      obtain ⟨hm₅, -, hk₅⟩ := h
      rw [← hm₅] at ha₂
      cases ok with
      | false => exact ⟨ha₂, hk.trans hk₅, by simp⟩
      | true =>
        refine ⟨ha₂, hk.trans hk₅, fun sz hsz => ?_⟩
        obtain rfl : res.1 = sz := Option.some.inj hsz
        refine ⟨by omega, ?_, by omega, hi₃⟩
        rw [hsz₂, hround]
        simp only [PGSIZE]
        omega

/-- The two outcomes of `exec`. -/
theorem exec_spec {k : Kernel κ} {cur : ProcPtr} {ip : Option Inode} {argv : List (List UInt8)}
    {d₀ : Pgdir} (hd : k.pgdir cur = some d₀) (hs : k.kstack cur ≠ none)
    (ha : Acct dom k.phys.kmem (r + d₀.holds)) :
    wp (exec cur ip argv) (fun res k' =>
      (res = .ret (-1) ∧ ∃ s', k' = { k with phys := s' } ∧ Acct dom s'.kmem (r + d₀.holds) ∧
        Keeps (r + d₀.holds) k.phys s') ∨
      (res = .ret 0 ∧ ∃ s' d sz, k' = { k with
          phys := s'
          proc := k.proc.set cur fun q => { q with sz := sz }
          pgdir := Function.update k.pgdir cur (some d.flush) } ∧
        Acct dom s'.kmem (r + d.holds) ∧ Keeps r k.phys s' ∧ sz < KERNBASE ∧ sz % PGSIZE = 0 ∧
        0 < sz ∧ Image r d (pages sz)))
      (fun e _ => e = .nullDeref) k := by
  have hfail : ∀ {s' : Phys κ}, Acct dom s'.kmem (r + d₀.holds) →
      Keeps (r + d₀.holds) k.phys s' → wp (pure (.ret (-1)) : KM κ Result) (fun res k' =>
      (res = .ret (-1) ∧ ∃ s', k' = { k with phys := s' } ∧ Acct dom s'.kmem (r + d₀.holds) ∧
        Keeps (r + d₀.holds) k.phys s') ∨
      (res = .ret 0 ∧ ∃ s' d sz, k' = { k with
          phys := s'
          proc := k.proc.set cur fun q => { q with sz := sz }
          pgdir := Function.update k.pgdir cur (some d.flush) } ∧
        Acct dom s'.kmem (r + d.holds) ∧ Keeps r k.phys s' ∧ sz < KERNBASE ∧ sz % PGSIZE = 0 ∧
        0 < sz ∧ Image r d (pages sz))) (fun e _ => e = .nullDeref) { k with phys := s' } :=
    fun ha hk => Or.inl ⟨rfl, _, rfl, ha, hk⟩
  unfold exec
  cases ip with
  | none => exact hfail ha (.refl _ _)
  | some ip =>
    dsimp only
    by_cases h₁ : (readi ip 0 sizeofElfhdr).length ≠ sizeofElfhdr
    · rw [if_pos h₁]
      exact hfail ha (.refl _ _)
    rw [if_neg h₁]
    by_cases h₂ : word (readi ip 0 sizeofElfhdr) 0 ≠ ELF_MAGIC
    · rw [if_pos h₂]
      exact hfail ha (.refl _ _)
    rw [if_neg h₂]
    simp only [wp_bind, wp_onPhys]
    refine wp_mono (setupkvm_image ha) (fun res s₁ h => ?_) fun _ _ h => h.elim
    cases res with
    | none => exact hfail h.1 h.2.1
    | some d =>
      obtain ⟨ha₁, -, hk₁, -, hi, -⟩ := h
      dsimp only
      simp only [wp_bind, wp_onPhys]
      refine wp_post (execImage_image hi ha₁) fun res s₂ h => ?_
      obtain ⟨sz?, d₂⟩ := res
      obtain ⟨ha₂, hk₂, himg⟩ := h
      cases sz? with
      | none =>
        simp only [wp_bind, wp_onPhys]
        refine wp_mono (freevm_spec ha₂) (fun _ s₃ h => ?_) fun _ _ h => h.elim
        exact hfail h.1 ((hk₁.trans hk₂).trans h.2.1)
      | some sz =>
        obtain ⟨hsz, hal, hpos, hi₂⟩ := himg sz rfl
        have hl : r + d₀.holds + d₂.holds = r + d₂.holds + d₀.holds := by abel
        rw [hl] at ha₂
        simp only [wp_bind, wp_get, setPgdir, setProc, wp_modify, switchuvm, lcr3, getPgdir, hs,
          hd, if_false, Function.update_self, wp_pure, wp_onPhys, reduceCtorEq]
        refine wp_mono (freevm_spec ha₂) (fun _ s₃ h => ?_) fun _ _ h => h.elim
        refine Or.inr ⟨trivial, s₃, d₂, sz, ?_, h.1, ((hk₁.trans hk₂).left).trans h.2.1.left, hsz, hal,
          hpos, hi₂.weaken⟩
        simp only [Function.update_idem]

/-! ## A program without segments -/

/-- The file of a program that consists of its header. -/
def bare : Inode := ⟨fun _ _ => [0x7F, 0x45, 0x4C, 0x46] ++ List.replicate 48 0⟩

omit [Kalloc κ] [Layout] [LawfulKalloc κ] in
/-- Copying out within one page of the user. -/
theorem copyout_page {d : Pgdir} {va v : ℕ} {buf : List UInt8} {s : Phys κ} (hva : va < 2 ^ 32)
    (hv : va / 4096 = v) (hP : (d.ent v).P = true) (hU : (d.ent v).U = true)
    (hlen : va % 4096 + buf.length ≤ 4096) :
    wp (copyout d va buf) (fun ok s' => ok = true ∧ s'.kmem = s.kmem) (fun _ _ => False) s := by
  have hround : PGROUNDDOWN va = v * 4096 := by rw [PGROUNDDOWN, PGSIZE, hv]
  have hhas : d.has (v / 1024) := Pgdir.has_of_ent_ne fun e => by
    rw [e] at hP
    cases hP
  have hfind : d.find (v * 4096) = some (d.ent v) := Pgdir.find_page (by omega) hhas
  unfold copyout
  cases buf with
  | nil => exact ⟨rfl, rfl⟩
  | cons b buf =>
    have hmin : min (PGSIZE - (va - v * 4096)) (b :: buf).length = (b :: buf).length := by
      rw [PGSIZE]
      omega
    unfold copyoutLoop
    rw [if_neg (by simp), hround]
    dsimp only
    rw [hfind]
    dsimp only
    rw [hP, hU, hmin, List.drop_length]
    simp only [Bool.not_true, Bool.false_eq_true, if_false, wp_bind, wp_modify, List.length_cons]
    unfold copyoutLoop
    exact ⟨rfl, rfl⟩

/-- The image of such a program: the guard page, and the stack. -/
theorem execImage_bare {d : Pgdir} {s : Phys κ} (hi : Image r d 0)
    (ha : Acct dom s.kmem (r + d.holds)) (hfree : 2000 ≤ s.free.length) :
    wp (execImage bare [] d 0 0) (fun res s' => res.1 = some 8192 ∧
      Acct dom s'.kmem (r + res.2.holds) ∧ (res.2.ent 0).P = true ∧ (res.2.ent 0).U = false ∧
      (res.2.ent 1).P = true ∧ s.free.length ≤ s'.free.length + 1026) (fun _ _ => False) s := by
  rw [Pgdir.add_holds] at ha
  have hp₀ : pages 0 = 0 := rfl
  have hp₂ : pages 8192 = 2 := rfl
  have hround : PGROUNDUP 0 = 0 := by decide
  unfold execImage execLoad
  simp only [wp_bind, wp_pure, Bool.not_true, Bool.false_eq_true, if_false, hround]
  refine wp_mono (allocuvm_spec ha) (fun res s₁ h => ?_) fun e _ he => ?_
  swap
  · obtain ⟨-, -, w, -, hw, hP⟩ := he
    rw [hi.high w (Nat.zero_le w) (lt_trans hw (by decide))] at hP
    cases hP
  obtain ⟨ha₁, -, ⟨hbig, -⟩ | ⟨-, hless, -⟩ | ⟨-, -, hgrew⟩⟩ := h
  · exact absurd hbig (by decide)
  · exact absurd hless (by decide)
  have hnew : pages (uint (0 + 2 * PGSIZE)) = 2 := rfl
  rcases hgrew with ⟨hres, -, hgr, -, -, hlen⟩ | ⟨-, -, -, -, hlen⟩
  swap
  · rw [hnew, hp₀] at hlen
    omega
  rw [hnew, hp₀] at hgr hlen
  obtain ⟨sz, d₁⟩ := res
  obtain rfl : sz = 8192 := hres
  have hflags := fun w hw => hgr.flags w (Nat.zero_le w) hw
  have hP₀ : (d₁.ent 0).P = true := congrArg Flags.P (hflags 0 (by decide))
  have hhas : d₁.has 0 := Pgdir.has_of_ent_ne (v := 0) fun e => by
    rw [e] at hP₀
    cases hP₀
  have hfind : d₁.find 0 = some (d₁.ent 0) := Pgdir.find_of_has (by decide) hhas
  have huva : uint (8192 + 2 ^ 32 - 2 * PGSIZE) = 0 := by decide
  have hent := fun w => Pgdir.ent_store_zero (e := { d₁.ent 0 with U := false }) hhas w
  have hone : (d₁.store 0 { d₁.ent 0 with U := false }).ent 1 = d₁.ent 1 := by
    rw [hent, if_neg (by decide)]
  have hzero : (d₁.store 0 { d₁.ent 0 with U := false }).ent 0 = { d₁.ent 0 with U := false } := by
    rw [hent, if_pos rfl]
  have hholds : (d₁.store 0 { d₁.ent 0 with U := false }).holds = d₁.holds := by
    have huses : (d₁.store 0 { d₁.ent 0 with U := false }).uses = d₁.uses :=
      Pgdir.uses_congr fun v _ => by
        rw [hent]
        split
        · rename_i hv
          rw [hv]
          rfl
        · rfl
    rw [Pgdir.holds, Pgdir.holds, huses, Pgdir.tables_store, Pgdir.frame_store]
  rw [← hgr.frame, ← Pgdir.add_holds, ← hholds] at ha₁
  rw [if_neg (show ¬(8192 = 0) by decide)]
  simp only [wp_bind, huva, clearpteu, hfind, wp_pure, execArgs]
  generalize d₁.store 0 { d₁.ent 0 with U := false } = d₂ at ha₁ hone hzero
  have h₁ := hflags 1 (by decide)
  refine wp_mono (copyout_page (v := 1) (by decide) (by decide) ?_ ?_ (by decide))
    (fun ok s₂ h => ?_) fun _ _ h => h.elim
  · rw [hone]
    exact congrArg Flags.P h₁
  · rw [hone]
    exact congrArg Flags.U h₁
  · obtain ⟨rfl, hm⟩ := h
    rw [if_pos rfl]
    refine ⟨rfl, ?_, ?_, ?_, ?_, ?_⟩
    · rw [hm]
      exact ha₁
    · rw [hzero]
      exact hP₀
    · rw [hzero]
    · rw [hone]
      exact congrArg Flags.P h₁
    · have hfree₂ : s₂.free = s₁.free := congrArg Kalloc.freelist hm
      rw [hfree₂]
      omega

/-- With enough memory `exec` of such a program succeeds. -/
theorem exec_bare {k : Kernel κ} {cur : ProcPtr} {d₀ : Pgdir} (hd : k.pgdir cur = some d₀)
    (hs : k.kstack cur ≠ none) (ha : Acct dom k.phys.kmem (r + d₀.holds))
    (hfree : 3000 ≤ k.phys.free.length) :
    wp (exec cur (some bare) []) (fun res k' => res = .ret 0 ∧ ∃ (s' : Phys κ) (d : Pgdir), k' = { k with
        phys := s'
        proc := k.proc.set cur fun q => { q with sz := 8192 }
        pgdir := Function.update k.pgdir cur (some d.flush) } ∧
      (d.ent 0).P = true ∧ (d.ent 0).U = false ∧ (d.ent 1).P = true ∧
      k.phys.free.length ≤ s'.free.length + 1539) (fun _ _ => False) k := by
  have hlen : (readi bare 0 sizeofElfhdr).length = sizeofElfhdr := by decide
  have hmagic : word (readi bare 0 sizeofElfhdr) 0 = ELF_MAGIC := by decide
  have hphoff : word (readi bare 0 sizeofElfhdr) 28 = 0 := by decide
  have hphnum : half (readi bare 0 sizeofElfhdr) 44 = 0 := by decide
  unfold exec
  dsimp only
  rw [if_neg (not_not.mpr hlen), if_neg (not_not.mpr hmagic), hphoff, hphnum]
  simp only [wp_bind, wp_onPhys]
  refine wp_mono (setupkvm_image ha) (fun res s₁ h => ?_) fun _ _ h => h.elim
  cases res with
  | none =>
    have := h.2.2.2
    omega
  | some d =>
    obtain ⟨ha₁, -, -, -, hi, hlen₁, -⟩ := h
    dsimp only
    simp only [wp_bind, wp_onPhys]
    refine wp_mono (execImage_bare hi ha₁ (by omega)) (fun res s₂ h => ?_) fun _ _ h => h.elim
    obtain ⟨sz?, d₂⟩ := res
    obtain ⟨rfl, ha₂, hP₀, hU₀, hP₁, hlen₂⟩ := h
    have hl : r + d₀.holds + d₂.holds = r + d₂.holds + d₀.holds := by abel
    have hex₂ := LawfulKalloc.exact_of_acct ha₂
    rw [hl] at ha₂
    simp only [wp_bind, wp_get, setPgdir, setProc, wp_modify, switchuvm, lcr3, getPgdir, hs,
      hd, if_false, Function.update_self, wp_pure, wp_onPhys, reduceCtorEq]
    refine wp_mono (freevm_spec ha₂) (fun _ s₃ h => ?_) fun _ _ h => h.elim
    refine ⟨trivial, s₃, d₂, ?_, hP₀, hU₀, hP₁, ?_⟩
    · simp only [Function.update_idem]
    · have : s₂.free.length ≤ s₃.free.length := by
        refine hex₂.length_le (LawfulKalloc.exact_of_acct h.1) fun f hf => ?_
        rw [hl, Pi.add_apply, add_eq_zero] at hf
        exact hf.1
      omega

end Spec

end OsLabs.Xv6
