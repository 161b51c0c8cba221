/-
SistemasOperativos.UserLib.ReadOnlyTheorems — what the test of `pgfault`
lets through.

The comment over the test asks for two things, a write and a copy-on-write
page, and for a `panic` otherwise. The test joins `err & FEC_WR`, which is
0 or 2, and `!(fault_pte & PTE_COW)`, which is 0 or 1, with `&`: it is
always 0. So a fault is handled right when both things hold, and otherwise
only when one of the later system calls fails.

Over runs: as long as every fault is a write to a copy-on-write page, a
page that is neither writable nor copy-on-write stays so in the process
and in all its descendants. The last result is a run in which the handler
makes such a page writable.
-/
import SistemasOperativos.UserLib.ForkTheorems

namespace SistemasOperativos.UserLib

open SistemasOperativos.Kern (Word pteP pteW pteU ptePWT ptePCD)

/-! ## How the handler ends -/

/-- A `panic`, a fault in `memmove`, or the return to the instruction that
faulted. -/
inductive Outcome where
  | panics
  | faults (m : Machine)
  | returns (m : Machine)

/-- `pgfault` with its errors: `page` is `none` when `sys_page_alloc`
fails, `memmove` reads only what the process may read, and `sys_page_map`
maps nothing above `UTOP`. -/
def pgfaultOutcome (m : Machine) (e : Pid) (pn : Nat) (err : Word) (page : Option Nat) : Outcome :=
  if (err &&& fecWr) &&& lnot (uvptPerm m e pn &&& pteCOW) ≠ 0 then .panics
  else
    let perm := pteP ||| pteU ||| pteW
    match page with
    | none => .panics
    | some page =>
        let m := sysPageAlloc m e pftemp perm page
        if uvptPerm m e pn &&& pteP = 0 ∨ uvptPerm m e pn &&& pteU = 0 then .faults m
        else
          match memmove m e pftemp pn with
          | none => .faults m
          | some m =>
              if pn < pnumEnd then
                match sysPageMap m e pftemp e pn perm with
                | none => .panics
                | some m => .returns (sysPageUnmap m e pftemp)
              else .panics

/-- The fault is a write, and the page is copy-on-write. -/
def WriteToCow (m : Machine) (e : Pid) (pn : Nat) (err : Word) : Prop :=
  err &&& fecWr ≠ 0 ∧ uvptPerm m e pn &&& pteCOW ≠ 0

instance (m : Machine) (e : Pid) (pn : Nat) (err : Word) : Decidable (WriteToCow m e pn err) :=
  inferInstanceAs (Decidable (_ ∧ _))

/-- What the comment asks of one call. -/
structure Checks (m : Machine) (e : Pid) (pn : Nat) (err : Word) (page : Option Nat) : Prop where
  replaces : ∀ m', pgfaultOutcome m e pn err page = .returns m' → WriteToCow m e pn err
  panics : ¬ WriteToCow m e pn err → pgfaultOutcome m e pn err page = .panics

variable {m m' : Machine} {e envid : Pid} {pn : Nat} {err : Word} {pte : Pte}

theorem uvptPerm_some (hpte : m.spaces e pn = some pte) : uvptPerm m e pn = pte.perm := by
  simp [uvptPerm, hpte]

theorem uvptPerm_readable : ¬ (uvptPerm m e pn &&& pteP = 0 ∨ uvptPerm m e pn &&& pteU = 0) ↔
    ∃ pte, m.spaces e pn = some pte ∧ Readable pte := by
  cases hpte : m.spaces e pn with
  | none => simp [uvptPerm, hpte]
  | some pte => simp [uvptPerm_some hpte, Readable]

/-! ## One call -/

/-- What the handler can do. Only the last two cases change mappings. -/
theorem pgfaultOutcome_cases (m : Machine) (e : Pid) (pn : Nat) (err : Word) (page : Option Nat) :
    (page = none ∧ pgfaultOutcome m e pn err page = .panics) ∨
    (pnumEnd ≤ pn ∧ (∃ pte, m.spaces e pn = some pte ∧ Readable pte) ∧
      pgfaultOutcome m e pn err page = .panics) ∨
    (∃ q, page = some q ∧ pn ≠ pftemp ∧ (¬ ∃ pte, m.spaces e pn = some pte ∧ Readable pte) ∧
      pgfaultOutcome m e pn err page =
        .faults (sysPageAlloc m e pftemp (pteP ||| pteU ||| pteW) q)) ∨
    (∃ q m', page = some q ∧ pn < pnumEnd ∧ pgfaultOutcome m e pn err page = .returns m' ∧
      m'.status = m.status ∧ ∀ x b, m'.spaces x b = if x = e ∧ b = pftemp then none
        else if x = e ∧ b = pn then some ⟨q, copyPerm⟩ else m.spaces x b) := by
  unfold pgfaultOutcome
  rw [if_neg (pgfault_test _ _)]
  cases page with
  | none => exact Or.inl ⟨rfl, rfl⟩
  | some q =>
      refine Or.inr ?_
      dsimp only
      have htemp := sysPageAlloc_pftemp m e q
      generalize hm₁ : sysPageAlloc m e pftemp (pteP ||| pteU ||| pteW) q = m₁ at htemp
      have hframe : ∀ x b, ¬ (x = e ∧ b = pftemp) → m₁.spaces x b = m.spaces x b := by
        intro x b hb
        rw [← hm₁, sysPageAlloc_other hb]
      by_cases hread : uvptPerm m₁ e pn &&& pteP = 0 ∨ uvptPerm m₁ e pn &&& pteU = 0
      · -- `PFTEMP` itself has just been mapped
        have hne : pn ≠ pftemp := by
          rintro rfl
          have hr : Readable ⟨q, pteP ||| pteU ||| pteW ||| pteU ||| pteP⟩ :=
            ⟨by dsimp only; decide, by dsimp only; decide⟩
          exact uvptPerm_readable.mpr ⟨_, htemp, hr⟩ hread
        refine Or.inr (Or.inl ⟨q, rfl, hne, ?_, by rw [if_pos hread, hm₁]⟩)
        rintro ⟨pte, hpte, hr⟩
        refine uvptPerm_readable.mpr ⟨pte, ?_, hr⟩ hread
        rw [hframe e pn (fun hc => hne hc.2), hpte]
      · rw [if_neg hread]
        obtain ⟨pte, hpte, hr⟩ := uvptPerm_readable.mp hread
        have hmove : memmove m₁ e pftemp pn = some (m₁.setContent q (m₁.contents pte.page)) := by
          simp only [memmove, htemp, hpte]
        rw [hmove]
        dsimp only
        by_cases hbelow : pn < pnumEnd
        · rw [if_pos hbelow]
          have hmap : sysPageMap (m₁.setContent q (m₁.contents pte.page)) e pftemp e pn
              (pteP ||| pteU ||| pteW) =
              some ((m₁.setContent q (m₁.contents pte.page)).setPte e pn
                (some ⟨q, copyPerm⟩)) := by
            have htemp' : (m₁.setContent q (m₁.contents pte.page)).spaces e pftemp = _ := htemp
            simp only [sysPageMap, htemp']
            rw [if_neg (by decide)]
          rw [hmap]
          refine Or.inr (Or.inr ⟨q, _, rfl, hbelow, rfl, by rw [← hm₁]; rfl, fun x b => ?_⟩)
          rw [sysPageUnmap, setPte_apply, setPte_apply]
          by_cases hb : x = e ∧ b = pftemp
          · rw [if_pos hb, if_pos hb]
          · rw [if_neg hb, if_neg hb, ← hframe x b hb]
            rfl
        · rw [if_neg hbelow]
          have hne : pn ≠ pftemp := by
            rintro rfl
            exact hbelow (by decide)
          refine Or.inl ⟨Nat.le_of_not_lt hbelow, ⟨pte, ?_, hr⟩, rfl⟩
          rw [← hframe e pn (fun hc => hne hc.2), hpte]

/-- The call does what the comment asks for a write to a copy-on-write
page, and otherwise if a system call fails: no memory for the copy, or a
page above `UTOP` that the process may read. -/
theorem checks_iff (m : Machine) (e : Pid) (pn : Nat) (err : Word) (page : Option Nat) :
    Checks m e pn err page ↔ WriteToCow m e pn err ∨ page = none ∨
      pnumEnd ≤ pn ∧ ∃ pte, m.spaces e pn = some pte ∧ Readable pte := by
  constructor
  · intro hc
    rcases pgfaultOutcome_cases m e pn err page with ⟨hnone, -⟩ | ⟨habove, hread, -⟩ |
      ⟨q, -, -, -, hfaults⟩ | ⟨q, m', -, -, hreturns, -, -⟩
    · exact Or.inr (Or.inl hnone)
    · exact Or.inr (Or.inr ⟨habove, hread⟩)
    · refine Or.inl (Decidable.byContradiction (fun hnot => ?_))
      rw [hc.panics hnot] at hfaults
      cases hfaults
    · exact Or.inl (hc.replaces m' hreturns)
  · intro hcond
    rcases hcond with hcow | hfails
    · exact ⟨fun _ _ => hcow, fun hnot => absurd hcow hnot⟩
    · have hpanics : pgfaultOutcome m e pn err page = .panics := by
        rcases pgfaultOutcome_cases m e pn err page with ⟨-, h⟩ | ⟨-, -, h⟩ |
          ⟨q, rfl, -, hread, -⟩ | ⟨q, m', rfl, hbelow, -, -, -⟩
        · exact h
        · exact h
        · rcases hfails with hnone | ⟨-, hr⟩
          · cases hnone
          · exact absurd hr hread
        · rcases hfails with hnone | ⟨habove, -⟩
          · cases hnone
          · omega
      refine ⟨fun m' hreturns => ?_, fun _ => hpanics⟩
      rw [hpanics] at hreturns
      cases hreturns

/-- The handler that returns is `pgfault`. -/
theorem pgfaultOutcome_returns {q : Nat} (h : pgfaultOutcome m e pn err (some q) = .returns m') :
    pgfault m e pn err q = some m' := by
  unfold pgfaultOutcome at h
  rw [if_neg (pgfault_test _ _)] at h
  rw [pgfault, if_neg (pgfault_test _ _)]
  dsimp only at h ⊢
  split at h
  · cases h
  · split at h
    · cases h
    · rename_i hmove
      rw [hmove]
      split at h
      · split at h
        · cases h
        · rename_i hmap
          cases h
          simp only [bind, Option.bind, hmap]
          rfl
      · cases h

/-- A page below `UTOP` that the process may read is replaced by a copy,
whatever the fault was. -/
theorem pgfaultOutcome_copies {q : Nat} (hpte : m.spaces e pn = some pte) (hr : Readable pte)
    (hbelow : pn < pnumEnd) (err : Word) :
    ∃ m', pgfaultOutcome m e pn err (some q) = .returns m' ∧ Copied m m' e pn q pte := by
  rcases pgfaultOutcome_cases m e pn err (some q) with ⟨hnone, -⟩ | ⟨habove, -, -⟩ |
    ⟨q', -, -, hread, -⟩ | ⟨q', m', -, -, hreturns, -, -⟩
  · cases hnone
  · omega
  · exact absurd ⟨pte, hpte, hr⟩ hread
  · obtain ⟨m₁, hpgfault, hcopied⟩ := pgfault_spec hpte err q
    rw [pgfaultOutcome_returns hreturns] at hpgfault
    cases hpgfault
    exact ⟨m', hreturns, hcopied⟩

/-! ## Runs -/

/-- What becomes of the mappings of a process and its descendants, in a
run whose faults are all `good` and that looks at page `pn`: `fork`, the
handler, the stores, and the system calls by which the program changes its
other pages. A process whose handler panics does nothing more. -/
inductive ProcessRun (outside : Nat → Prop) (good : Machine → Pid → Nat → Word → Prop) (pn : Nat)
    (m₀ : Machine) : Machine → Prop where
  | start : ProcessRun outside good pn m₀ m₀
  | fork {m m' : Machine} {evs : List Event} : ProcessRun outside good pn m₀ m →
      Step outside (fun _ => False) m evs m' → ProcessRun outside good pn m₀ m'
  | fault {m m' : Machine} {e : Pid} {b : Nat} {err : Word} {page : Option Nat} :
      ProcessRun outside good pn m₀ m → Alive m e → good m e b err →
      pgfaultOutcome m e b err page = .faults m' ∨ pgfaultOutcome m e b err page = .returns m' →
      ProcessRun outside good pn m₀ m'
  | store {m : Machine} (page : Nat) (c : Content) : ProcessRun outside good pn m₀ m →
      ProcessRun outside good pn m₀ (m.setContent page c)
  | call {m : Machine} {b : Nat} (e : Pid) (pte : Option Pte) : ProcessRun outside good pn m₀ m →
      b ≠ pn → ProcessRun outside good pn m₀ (m.setPte e b pte)

/-- Page `pn` is nowhere copy-on-write, and nowhere writable unless `fork`
itself maps it. -/
structure StaysReadOnly (pn : Nat) (m : Machine) : Prop where
  entries : ∀ e, m.status e ≠ .absent → ∀ pte, m.spaces e pn = some pte →
    pte.perm &&& pteCOW = 0 ∧ (pn ≠ exstk → pte.perm &&& pteW = 0)
  children : ∀ e envid pnum, m.status e = .forking envid pnum →
    envid ≠ e ∧ m.status envid ≠ .absent

theorem Alive.ne_absent (ha : Alive m e) : m.status e ≠ .absent := by
  intro habsent
  rcases ha with hr | ⟨envid, pnum, hf⟩
  · rw [habsent] at hr
    cases hr
  · rw [habsent] at hf
    cases hf

/-- A fault that is a write to a copy-on-write page leaves all other pages
as they are, `PFTEMP` apart. -/
theorem StaysReadOnly.handler (hs : StaysReadOnly pn m) (ha : Alive m e) (hne : pn ≠ pftemp)
    {b : Nat} {page : Option Nat} (hcow : WriteToCow m e b err)
    (h : pgfaultOutcome m e b err page = .faults m' ∨
      pgfaultOutcome m e b err page = .returns m') :
    m'.status = m.status ∧ ∀ x, m'.spaces x pn = m.spaces x pn := by
  have hother : b ≠ pn := by
    rintro rfl
    cases hpte : m.spaces e b with
    | none => exact hcow.2 (by simp [uvptPerm, hpte])
    | some pte =>
        refine hcow.2 ?_
        rw [uvptPerm_some hpte]
        exact (hs.entries e ha.ne_absent pte hpte).1
  rcases pgfaultOutcome_cases m e b err page with ⟨-, heq⟩ | ⟨-, -, heq⟩ | ⟨q, -, -, -, heq⟩ |
    ⟨q, m₁, -, -, heq, hstatus, hspaces⟩
  · rw [heq] at h
    rcases h with h | h <;> cases h
  · rw [heq] at h
    rcases h with h | h <;> cases h
  · rw [heq] at h
    rcases h with h | h
    · cases h
      exact ⟨rfl, fun x => sysPageAlloc_other (fun hc => hne hc.2) _⟩
    · cases h
  · rw [heq] at h
    rcases h with h | h
    · cases h
    · cases h
      refine ⟨hstatus, fun x => ?_⟩
      rw [hspaces, if_neg (fun hc => hne hc.2), if_neg (fun hc => hother hc.2.symm)]

/-- What leaves the statuses and the entries of page `pn` alone. -/
theorem StaysReadOnly.congr (hs : StaysReadOnly pn m) (hstatus : m'.status = m.status)
    (hspaces : ∀ x, m'.spaces x pn = m.spaces x pn) : StaysReadOnly pn m' := by
  constructor
  · intro x hx pte hpte
    rw [hstatus] at hx
    rw [hspaces] at hpte
    exact hs.entries x hx pte hpte
  · intro x envid pnum hf
    rw [hstatus] at hf ⊢
    exact hs.children x envid pnum hf

/-- A page that is read-only in the parent is so in the child. -/
theorem dupPerm_readOnly {perm : Word} (hw : perm &&& pteW = 0) (hc : perm &&& pteCOW = 0) :
    dupPerm perm &&& pteCOW = 0 := by
  have hp : ¬ (perm &&& pteW ≠ 0 ∨ perm &&& pteCOW ≠ 0) := by
    rw [not_or, not_not, not_not]
    exact ⟨hw, hc⟩
  by_cases hio : perm &&& (ptePCD ||| ptePWT) ≠ 0
  · simp only [dupPerm, if_pos hio, if_neg hp]
    decide
  · simp only [dupPerm, if_neg hio, if_neg hp]
    decide

/-- What is mapped after `set_pgfault_handler` and `sys_exofork`. -/
theorem forkStart_mapped {page b : Nat} {x : Pid}
    (hpte : (forkStart m e envid page).spaces x b = some pte) :
    x ≠ envid ∧ (b = exstk ∧ pte.perm = pteU ||| pteP ||| pteW ||| pteU ||| pteP ∨
      m.spaces x b = some pte) := by
  have hx : x ≠ envid := by
    rintro rfl
    simp [forkStart, Machine.setStatus] at hpte
  refine ⟨hx, ?_⟩
  by_cases hh : m.handler e = false
  · have hset : (forkStart m e envid page).spaces x b =
        (sysPageAlloc m e exstk (pteU ||| pteP ||| pteW) page).spaces x b := by
      simp [forkStart, setPgfaultHandler, Machine.setStatus, hh, hx]
    rw [hset, sysPageAlloc, setPte_apply] at hpte
    split at hpte
    · rename_i hstk
      cases hpte
      exact Or.inl ⟨hstk.2, rfl⟩
    · exact Or.inr hpte
  · refine Or.inr ?_
    rw [← hpte]
    simp [forkStart, setPgfaultHandler, Machine.setStatus, hh, hx]

/-- The page that `fork` maps for the exception stack. -/
theorem exstk_entry {perm : Word} (hperm : perm = pteU ||| pteP ||| pteW ||| pteU ||| pteP) :
    perm &&& pteCOW = 0 := by
  rw [hperm]
  decide

theorem StaysReadOnly.forkStart (hs : StaysReadOnly pn m) {page : Nat}
    (hr : m.status e = .running) (habsent : m.status envid = .absent) :
    StaysReadOnly pn (forkStart m e envid page) := by
  have hne : envid ≠ e := by
    rintro rfl
    rw [hr] at habsent
    cases habsent
  have hstay : ∀ x, m.status x ≠ .absent →
      (UserLib.forkStart m e envid page).status x ≠ .absent := by
    intro x hx
    rw [forkStart_status]
    split
    · exact fun hc => by cases hc
    · split
      · exact fun hc => by cases hc
      · exact hx
  constructor
  · intro x hx pte hpte
    obtain ⟨hxc, hcase⟩ := forkStart_mapped hpte
    rcases hcase with ⟨hstk, hperm⟩ | hpte'
    · exact ⟨exstk_entry hperm, fun hnot => absurd hstk hnot⟩
    · refine hs.entries x ?_ pte hpte'
      by_cases hxe : x = e
      · rw [hxe, hr]
        exact fun hc => by cases hc
      · rwa [forkStart_status, if_neg hxe, if_neg hxc] at hx
  · intro x c pnum hf
    rw [forkStart_status] at hf
    split at hf
    · rename_i hxe
      cases hf
      refine ⟨by rw [hxe]; exact hne, ?_⟩
      rw [forkStart_status, if_neg hne, if_pos rfl]
      exact fun hc => by cases hc
    · split at hf
      · cases hf
      · obtain ⟨hce, hc⟩ := hs.children x c pnum hf
        exact ⟨hce, hstay c hc⟩

theorem StaysReadOnly.forkPage (hs : StaysReadOnly pn m) {pnum : Nat}
    (hf : m.status e = .forking envid pnum) (h : forkPage m e envid pnum = some m') :
    StaysReadOnly pn (m'.setStatus e (.forking envid (pnum + 1))) := by
  obtain ⟨hne, hchild⟩ := hs.children e envid pnum hf
  have hpresent : m.status e ≠ .absent := by
    rw [hf]
    exact fun hc => by cases hc
  -- what a page that is duplicated gets, in parent and child
  have hdup : ∀ q, m.spaces e pn = some q → pn ≠ exstk →
      dupPerm q.perm &&& pteCOW = 0 ∧ (pn ≠ exstk → dupPerm q.perm &&& pteW = 0) := by
    intro q hq hstk
    obtain ⟨hcow, hw⟩ := hs.entries e hpresent q hq
    exact ⟨dupPerm_readOnly (hw hstk) hcow, fun _ => (dupPerm_spec q.perm).1⟩
  have hmapped : m'.status = m.status ∧ ∀ x, m.status x ≠ .absent → ∀ pte,
      m'.spaces x pn = some pte →
        pte.perm &&& pteCOW = 0 ∧ (pn ≠ exstk → pte.perm &&& pteW = 0) := by
    by_cases hstk : pnum = exstk
    · rw [UserLib.forkPage, if_pos hstk] at h
      cases h
      exact ⟨rfl, hs.entries⟩
    · rcases forkPage_spec m pnum hne with ⟨heq, -⟩ | ⟨q, m₁, heq, hd⟩
      · rw [heq] at h
        cases h
        exact ⟨rfl, hs.entries⟩
      · rw [heq] at h
        cases h
        refine ⟨hd.status, fun x hx pte hpte => ?_⟩
        rw [hd.spaces] at hpte
        split at hpte
        · rename_i hpn
          cases hpte
          have hq := hd.mapped
          rw [← hpn.1] at hq hstk
          exact hdup q hq hstk
        · exact hs.entries x hx pte hpte
  have hstatus : ∀ x, (m'.setStatus e (.forking envid (pnum + 1))).status x =
      if x = e then .forking envid (pnum + 1) else m.status x := by
    intro x
    rw [← hmapped.1]
    exact Function.update_apply ..
  have hstay : ∀ x, (m'.setStatus e (.forking envid (pnum + 1))).status x ≠ .absent ↔
      m.status x ≠ .absent := by
    intro x
    rw [hstatus]
    split
    · rename_i hx
      rw [hx]
      exact ⟨fun _ => hpresent, fun _ hc => by cases hc⟩
    · exact Iff.rfl
  constructor
  · intro x hx pte hpte
    exact hmapped.2 x ((hstay x).mp hx) pte hpte
  · intro x c n hforking
    rw [hstay]
    rw [hstatus] at hforking
    split at hforking
    · rename_i hx
      cases hforking
      rw [hx]
      exact ⟨hne, hchild⟩
    · exact hs.children x c n hforking

theorem StaysReadOnly.forkEnd (hs : StaysReadOnly pn m) {pnum page : Nat}
    (hf : m.status e = .forking envid pnum) : StaysReadOnly pn (forkEnd m e envid page) := by
  obtain ⟨-, hchild⟩ := hs.children e envid pnum hf
  have hstay : ∀ x, (UserLib.forkEnd m e envid page).status x ≠ .absent ↔ m.status x ≠ .absent := by
    intro x
    rw [forkEnd_status]
    split
    · rename_i hx
      refine ⟨fun _ => ?_, fun _ hc => by cases hc⟩
      rcases hx with rfl | rfl
      · rw [hf]
        exact fun hc => by cases hc
      · exact hchild
    · exact Iff.rfl
  constructor
  · intro x hx pte hpte
    rw [forkEnd_spaces] at hpte
    split at hpte
    · rename_i hstk
      cases hpte
      exact ⟨exstk_entry rfl, fun hnot => absurd hstk.2 hnot⟩
    · exact hs.entries x ((hstay x).mp hx) pte hpte
  · intro x c n hforking
    rw [hstay]
    rw [forkEnd_status] at hforking
    split at hforking
    · cases hforking
    · exact hs.children x c n hforking

/-- Every step keeps the page read-only. -/
theorem StaysReadOnly.run {outside : Nat → Prop} {m₀ : Machine} (hs : StaysReadOnly pn m₀)
    (hne : pn ≠ pftemp) (hrun : ProcessRun outside WriteToCow pn m₀ m) : StaysReadOnly pn m := by
  induction hrun with
  | start => exact hs
  | fork _ hstep ih =>
      cases hstep with
      | write _ hfalse => exact hfalse.elim
      | fault _ hfalse => exact hfalse.elim
      | forkStart hr habsent _ => exact ih.forkStart hr habsent
      | forkPage hf _ hturn => exact ih.forkPage hf hturn
      | forkEnd hf _ => exact ih.forkEnd hf
  | fault _ ha hcow houtcome ih =>
      obtain ⟨hstatus, hspaces⟩ := ih.handler ha hne hcow houtcome
      exact ih.congr hstatus hspaces
  | store page c _ ih => exact ih.congr rfl (fun _ => rfl)
  | call e pte _ hb ih =>
      refine ih.congr rfl (fun x => ?_)
      rw [setPte_apply, if_neg (fun hc => hb hc.2.symm)]

/-- The handler does what its comment asks of a call exactly when the
fault is a write to a copy-on-write page, or a later system call fails;
such a page is replaced by a copy. In a run whose faults are all such
writes, it never touches a page that the process had mapped read-only, in
the process or in a descendant, and the page is never writable there. -/
theorem read_only_pages (m : Machine) (e : Pid) (pn : Nat) (err : Word) (page : Option Nat) :
    (Checks m e pn err page ↔ WriteToCow m e pn err ∨ page = none ∨
      pnumEnd ≤ pn ∧ ∃ pte, m.spaces e pn = some pte ∧ Readable pte) ∧
    (∀ pte q, page = some q → WriteToCow m e pn err → m.spaces e pn = some pte → Readable pte →
      pn < pnumEnd → pn ≠ pftemp →
      ∃ m', pgfaultOutcome m e pn err page = .returns m' ∧ Copied m m' e pn q pte) ∧
    ∀ (outside : Nat → Prop) (m₀ : Machine) (r : Pid) (pte : Pte),
      m₀.status r = .running → (∀ x, x ≠ r → m₀.status x = .absent) →
      m₀.spaces r pn = some pte → pte.perm &&& pteW = 0 → pte.perm &&& pteCOW = 0 →
      pn ≠ pftemp → ProcessRun outside WriteToCow pn m₀ m →
      (∀ b m', Alive m e → WriteToCow m e b err →
        pgfaultOutcome m e b err page = .faults m' ∨ pgfaultOutcome m e b err page = .returns m' →
        ∀ x, m'.spaces x pn = m.spaces x pn) ∧
      (pn ≠ exstk → ∀ x, m.status x ≠ .absent → ∀ pte, m.spaces x pn = some pte →
        pte.perm &&& pteW = 0) := by
  refine ⟨checks_iff m e pn err page, ?_, ?_⟩
  · rintro pte q rfl - hpte hr hbelow -
    exact pgfaultOutcome_copies hpte hr hbelow err
  intro outside m₀ r pte hr halone hpte hw hc hne hrun
  have hstart : StaysReadOnly pn m₀ := by
    have honly : ∀ e, m₀.status e ≠ .absent → e = r := by
      intro e he
      exact Decidable.byContradiction (fun hnot => he (halone e hnot))
    constructor
    · intro e he q hq
      rw [honly e he, hpte] at hq
      cases hq
      exact ⟨hc, fun _ => hw⟩
    · intro e envid pnum hf
      have he : e = r := honly e (by rw [hf]; exact fun hc => by cases hc)
      rw [he, hr] at hf
      cases hf
  have hs := hstart.run hne hrun
  exact ⟨fun b m' ha hcow houtcome => (hs.handler ha hne hcow houtcome).2,
    fun hstk x hx q hq => (hs.entries x hx q hq).2 hstk⟩

/-! ## A page that becomes writable -/

/-- Process 0 with two pages: page 0 is read-only, and page 1 is
copy-on-write. -/
def readOnlyParent : Machine where
  spaces e pn :=
    if e = 0 ∧ pn = 0 then some ⟨1, pteP ||| pteU⟩
    else if e = 0 ∧ pn = 1 then some ⟨0, pteP ||| pteU ||| pteCOW⟩
    else none
  contents := fun _ _ => 0
  status e := if e = 0 then .running else .absent
  handler := fun _ => false

theorem ProcessRun.ofRun {outside : Nat → Prop} {good : Machine → Pid → Nat → Word → Prop}
    {m₀ : Machine} {h : List Event} (hrun : Run outside (fun _ => False) m₀ m h) :
    ProcessRun outside good pn m₀ m := by
  induction hrun with
  | start => exact .start
  | step _ hstep ih => exact .fork ih hstep

/-- The first three physical pages are all that is mapped, and the pages
of the parent are of the same kind as before. -/
structure ReadOnlySpaces (spaces : Pid → Space) : Prop where
  pages : ∀ e pn pte, spaces e pn = some pte → pte.page < 3
  zero : spaces 0 0 = some ⟨1, pteP ||| pteU⟩
  one : ∃ pte, spaces 0 1 = some pte ∧ Readable pte ∧ pte.perm &&& pteCOW ≠ 0

theorem ReadOnlySpaces.duplicated (hd : Duplicated m m' 0 1 pn pte)
    (hs : ReadOnlySpaces m.spaces) : ReadOnlySpaces m'.spaces := by
  constructor
  · intro x b q hq
    rw [hd.spaces] at hq
    split at hq
    · cases hq
      exact hs.pages 0 pn pte hd.mapped
    · exact hs.pages x b q hq
  · rw [hd.spaces, if_neg, hs.zero]
    rintro ⟨hb, hx | ⟨-, hp⟩⟩
    · cases hx
    · have hq := hd.mapped
      rw [← hb, hs.zero] at hq
      cases hq
      exact absurd hp (by decide)
  · obtain ⟨q, hq, hr, hcow⟩ := hs.one
    rw [hd.spaces]
    split
    · rename_i hx
      have hold := hd.mapped
      rw [← hx.1, hq] at hold
      cases hold
      obtain ⟨-, hP, hU, hC⟩ := dupPerm_spec pte.perm
      exact ⟨_, rfl, ⟨hP, hU⟩, hC (Or.inr hcow)⟩
    · exact ⟨q, hq, hr, hcow⟩

/-- Process 0 has forked process 1, and its pages are of the same kind as
before. -/
theorem readOnlyParent_forks : ∃ m h, Run (fun _ => False) (fun _ => False) readOnlyParent m h ∧
    m.status 0 = .running ∧ m.status 1 = .running ∧ m.spaces 0 0 = some ⟨1, pteP ||| pteU⟩ ∧
    ∃ pte, m.spaces 0 1 = some pte ∧ Readable pte ∧ pte.perm &&& pteCOW ≠ 0 := by
  have hmapped : ∀ e pn pte, readOnlyParent.spaces e pn = some pte → pte.page < 2 := by
    intro e pn pte hpte
    simp only [readOnlyParent] at hpte
    split at hpte
    · cases hpte
      decide
    · split at hpte
      · cases hpte
        decide
      · cases hpte
  have hfresh : Fresh (fun _ => False) readOnlyParent 2 :=
    ⟨fun hout => hout, fun e pn pte hpte => Nat.ne_of_lt (hmapped e pn pte hpte)⟩
  have habsent : ∀ b, readOnlyParent.spaces 1 b = none := fun b => rfl
  have hsp := forkStart_spaces habsent (show 1 ≠ 0 by decide) 2
  have hkeep : ∀ b, b ≠ exstk →
      (forkStart readOnlyParent 0 1 2).spaces 0 b = readOnlyParent.spaces 0 b := by
    intro b hb
    rw [hsp, if_neg (fun hc => hb hc.2.2)]
  have hspaces : ReadOnlySpaces (forkStart readOnlyParent 0 1 2).spaces := by
    refine ⟨fun e pn pte hpte => ?_, hkeep 0 (by decide),
      ⟨0, pteP ||| pteU ||| pteCOW⟩, hkeep 1 (by decide), ⟨by decide, by decide⟩, by decide⟩
    rw [hsp] at hpte
    split at hpte
    · cases hpte
      decide
    · exact Nat.lt_succ_of_lt (hmapped e pn pte hpte)
  have hstep : Step (fun _ => False) (fun _ => False) readOnlyParent [.fork 0 1]
      (forkStart readOnlyParent 0 1 2) := .forkStart rfl rfl hfresh
  obtain ⟨m, hrun, hf, hm⟩ := run_loop ReadOnlySpaces
    (fun _ _ _ _ => ReadOnlySpaces.duplicated) (by decide) (Run.start.step hstep)
    ((forkStart_status 0).trans (if_pos rfl)) hspaces pnumEnd (Nat.le_refl _)
  have hfree : Fresh (fun _ => False) m 3 :=
    ⟨fun hout => hout, fun e pn pte hpte => Nat.ne_of_lt (hm.pages e pn pte hpte)⟩
  refine ⟨forkEnd m 0 1 3, _, hrun.step (.forkEnd hf hfree), forkEnd_status 0, forkEnd_status 1, ?_, ?_⟩
  · rw [forkEnd_spaces, if_neg (by decide), hm.zero]
  · rw [forkEnd_spaces, if_neg (by decide)]
    exact hm.one

/-- After the `fork` the parent writes to its read-only page: the handler
returns, and the page is writable. -/
theorem read_only_page_made_writable :
    ∃ m m', ProcessRun (fun _ => False) (fun _ _ _ _ => True) 0 readOnlyParent m ∧
      Alive m 0 ∧ m.spaces 0 0 = some ⟨1, pteP ||| pteU⟩ ∧
      pgfaultOutcome m 0 0 7 (some 4) = .returns m' ∧ m'.spaces 0 0 = some ⟨4, copyPerm⟩ ∧
      copyPerm &&& pteW ≠ 0 ∧ ¬ Checks m 0 0 7 (some 4) := by
  obtain ⟨m, h, hrun, hr, -, hzero, -⟩ := readOnlyParent_forks
  have hread : Readable ⟨1, pteP ||| pteU⟩ := ⟨by decide, by decide⟩
  obtain ⟨m', hreturns, hcopied⟩ := pgfaultOutcome_copies (q := 4) hzero hread (by decide) 7
  refine ⟨m, m', .ofRun hrun, Or.inl hr, hzero, hreturns, ?_, by decide, fun hc => ?_⟩
  · rw [hcopied.spaces, if_neg (by decide), if_pos ⟨rfl, rfl⟩]
  · have hcow := (hc.replaces m' hreturns).2
    rw [uvptPerm_some hzero] at hcow
    exact hcow (by decide)

/-- The same process after a write to its copy-on-write page, and before
any other fault. -/
theorem readOnlyParent_copies : ∃ m, ProcessRun (fun _ => False) WriteToCow 0 readOnlyParent m ∧
    m.status 1 = .running ∧ m.spaces 0 1 = some ⟨4, copyPerm⟩ := by
  obtain ⟨m, h, hrun, hr, hchild, -, pte, hpte, hread, hcow⟩ := readOnlyParent_forks
  obtain ⟨m', hreturns, hcopied⟩ := pgfaultOutcome_copies (q := 4) hpte hread (by decide) 7
  have hwrite : WriteToCow m 0 1 7 := by
    refine ⟨by decide, ?_⟩
    rw [uvptPerm_some hpte]
    exact hcow
  refine ⟨m', .fault (.ofRun hrun) (Or.inl hr) hwrite (Or.inr hreturns), ?_, ?_⟩
  · rw [hcopied.status, hchild]
  · rw [hcopied.spaces, if_neg (by decide), if_pos ⟨rfl, rfl⟩]

theorem read_only_pages_forked :
    ∃ m, ProcessRun (fun _ => False) WriteToCow 0 readOnlyParent m ∧ m.status 1 = .running ∧
      m.spaces 0 1 = some ⟨4, copyPerm⟩ ∧
      ∀ e, m.status e ≠ .absent → ∀ pte, m.spaces e 0 = some pte → pte.perm &&& pteW = 0 := by
  obtain ⟨m, hrun, hchild, hcopy⟩ := readOnlyParent_copies
  refine ⟨m, hrun, hchild, hcopy, ?_⟩
  obtain ⟨-, -, hruns⟩ := read_only_pages m 0 0 7 (some 4)
  exact (hruns (fun _ => False) readOnlyParent 0 ⟨1, pteP ||| pteU⟩ rfl (fun e he => if_neg he) rfl
    (by decide) (by decide) (by decide) hrun).2 (by decide)

end SistemasOperativos.UserLib
