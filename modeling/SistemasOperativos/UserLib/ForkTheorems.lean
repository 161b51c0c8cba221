/-
SistemasOperativos.UserLib.ForkTheorems — parent and child do not see each
other's writes.

The specification gives every process a memory of its own: `fork` copies
it and a write changes one byte of one copy. A write that `fork` itself
makes to its stack before that page is duplicated reaches the child too.
What a process reads is what its own memory says, because a page that is
mapped writable is mapped once.

`pgfault` uses the page at `PFTEMP`, whatever is there, and unmaps it. So
a page that the parent keeps there is lost, which is the last result, and
the theorem is about every other page.
-/
import SistemasOperativos.UserLib.Fork

namespace SistemasOperativos.UserLib

open SistemasOperativos.Kern (Word pteP pteW pteU ptePWT ptePCD)

/-! ## The specification -/

/-- The memories after one more event. -/
def viewAfter (view : Pid → Nat → Content) : Event → Pid → Nat → Content
  | .fork e envid => Function.update view envid (view e)
  | .write e pn off byte heir => fun x b =>
      if b = pn ∧ (x = e ∨ heir = some x) then Function.update (view x b) off byte else view x b

/-- The memory of each process after a history, when `init` is what the
first one starts with. -/
def view (init : Nat → Content) (h : List Event) : Pid → Nat → Content :=
  h.foldl viewAfter (fun _ => init)

/-- A mapping that a process may read. -/
def Readable (pte : Pte) : Prop := pte.perm &&& pteP ≠ 0 ∧ pte.perm &&& pteU ≠ 0

/-- Writable or copy-on-write. -/
def Private (pte : Pte) : Prop := pte.perm &&& pteW ≠ 0 ∨ pte.perm &&& pteCOW ≠ 0

instance (pte : Pte) : Decidable (Private pte) :=
  inferInstanceAs (Decidable (pte.perm &&& pteW ≠ 0 ∨ pte.perm &&& pteCOW ≠ 0))

/-- The pages that were writable or copy-on-write in the parent, other
than the exception stack. The processes write to these. -/
def Tracked (m₀ : Machine) (r : Pid) (pn : Nat) : Prop :=
  pn ≠ exstk ∧ ∃ pte, m₀.spaces r pn = some pte ∧ Readable pte ∧ Private pte

/-- All of them but the one at `PFTEMP`. -/
def Followed (m₀ : Machine) (r : Pid) (pn : Nat) : Prop := Tracked m₀ r pn ∧ pn ≠ pftemp

/-- The contents of the parent's pages. -/
def initialContent (m₀ : Machine) (r : Pid) (pn : Nat) : Content :=
  match m₀.spaces r pn with
  | none => fun _ => 0
  | some pte => m₀.contents pte.page

/-- A parent that runs alone: its address space lies below `UTOP`, no
physical page is in it twice, and its writable pages are in no other
environment. -/
structure Parent (outside : Nat → Prop) (m₀ : Machine) (r : Pid) : Prop where
  running : m₀.status r = .running
  alone : ∀ e, e ≠ r → m₀.status e = .absent ∧ ∀ pn, m₀.spaces e pn = none
  below : ∀ pn pte, m₀.spaces r pn = some pte → pn < pnumEnd
  once : ∀ pn pn' pte pte', m₀.spaces r pn = some pte → m₀.spaces r pn' = some pte' →
    pte.page = pte'.page → pn = pn'
  unshared : ∀ pn pte, m₀.spaces r pn = some pte → pte.perm &&& pteW ≠ 0 → ¬ outside pte.page

/-- A page that is mapped writable is mapped once. -/
def Exclusive (outside : Nat → Prop) (m : Machine) : Prop :=
  ∀ e pn pte, m.spaces e pn = some pte → pte.perm &&& pteW ≠ 0 → ¬ outside pte.page ∧
    ∀ e' pn' pte', m.spaces e' pn' = some pte' → pte'.page = pte.page → e' = e ∧ pn' = pn

/-- Every process reads its own memory, a writable page is mapped once,
and neither `fork` nor `pgfault` panics. -/
structure Isolates (outside tracked : Nat → Prop) (init : Nat → Content) (m : Machine)
    (h : List Event) : Prop where
  reads : ∀ e pn, Alive m e → tracked pn →
    ∃ pte, m.spaces e pn = some pte ∧ Readable pte ∧ m.contents pte.page = view init h e pn
  exclusive : Exclusive outside m
  forkRuns : ∀ e envid pnum, m.status e = .forking envid pnum →
    ∃ m', forkPage m e envid pnum = some m'
  faultRuns : ∀ e pn page, Alive m e → tracked pn → ∃ m', pgfault m e pn 7 page = some m'

/-! ## The memories of the specification -/

variable {init : Nat → Content} {h : List Event} {m m' : Machine} {e envid : Pid} {pn page : Nat}
  {pte : Pte}

@[simp] theorem view_nil : view init [] = fun _ => init := rfl

@[simp] theorem view_append_one (ev : Event) : view init (h ++ [ev]) = viewAfter (view init h) ev := by
  simp [view]

/-! ## Stores -/

theorem setPte_apply (m : Machine) (e : Pid) (pn : Nat) (pte : Option Pte) (x : Pid) (b : Nat) :
    (m.setPte e pn pte).spaces x b = if x = e ∧ b = pn then pte else m.spaces x b := by
  by_cases hx : x = e
  · subst hx
    by_cases hb : b = pn
    · subst hb
      simp [Machine.setPte]
    · simp [Machine.setPte, hb]
  · simp [Machine.setPte, hx]

/-! ## `sys_page_map` without `PTE_W` -/

/-- A mapping that is not writable can always be made. -/
theorem sysPageMap_eq {src dst : Pid} {srcpn dstpn : Nat} {perm : Word}
    (hpte : m.spaces src srcpn = some pte) (hw : (pteP ||| pteU ||| perm) &&& pteW = 0) :
    sysPageMap m src srcpn dst dstpn perm =
      some (m.setPte dst dstpn (some ⟨pte.page, pteP ||| pteU ||| perm⟩)) := by
  simp only [sysPageMap, hpte, hw]
  rw [if_neg]
  rw [not_not]
  exact BitVec.zero_and

/-- The bits `duppage` gives to both mappings of a page, or to the child's
mapping of one that is read-only. -/
def dupPerm (perm : Word) : Word :=
  let flags := pteU ||| pteP
  let flags := if perm &&& (ptePCD ||| ptePWT) ≠ 0 then flags ||| ptePCD ||| ptePWT else flags
  if perm &&& pteW ≠ 0 ∨ perm &&& pteCOW ≠ 0 then pteP ||| pteU ||| (flags ||| pteCOW)
  else pteP ||| pteU ||| flags

theorem dupPerm_spec (perm : Word) :
    dupPerm perm &&& pteW = 0 ∧ dupPerm perm &&& pteP ≠ 0 ∧ dupPerm perm &&& pteU ≠ 0 ∧
      (perm &&& pteW ≠ 0 ∨ perm &&& pteCOW ≠ 0 → dupPerm perm &&& pteCOW ≠ 0) := by
  by_cases hio : perm &&& (ptePCD ||| ptePWT) ≠ 0
  · by_cases hp : perm &&& pteW ≠ 0 ∨ perm &&& pteCOW ≠ 0
    · simp only [dupPerm, if_pos hio, if_pos hp]
      exact ⟨by decide, by decide, by decide, fun _ => by decide⟩
    · simp only [dupPerm, if_pos hio, if_neg hp]
      exact ⟨by decide, by decide, by decide, fun hc => absurd hc hp⟩
  · by_cases hp : perm &&& pteW ≠ 0 ∨ perm &&& pteCOW ≠ 0
    · simp only [dupPerm, if_neg hio, if_pos hp]
      exact ⟨by decide, by decide, by decide, fun _ => by decide⟩
    · simp only [dupPerm, if_neg hio, if_neg hp]
      exact ⟨by decide, by decide, by decide, fun hc => absurd hc hp⟩

/-- `duppage` maps the page in the child, and once more in the parent if
it was writable or copy-on-write. -/
theorem duppage_eq (hpte : m.spaces e pn = some pte) (hr : Readable pte) (hne : envid ≠ e) :
    (Private pte → duppage m e envid pn =
      some ((m.setPte envid pn (some ⟨pte.page, dupPerm pte.perm⟩)).setPte e pn
        (some ⟨pte.page, dupPerm pte.perm⟩))) ∧
    (¬ Private pte → duppage m e envid pn =
      some (m.setPte envid pn (some ⟨pte.page, dupPerm pte.perm⟩))) := by
  have hw := (dupPerm_spec pte.perm).1
  have huvpt : uvptPerm m e pn = pte.perm := by
    simp [uvptPerm, hpte]
  have hok : ¬ (pte.perm &&& pteP = 0 ∨ pte.perm &&& pteU = 0) := by
    rw [not_or]
    exact hr
  constructor
  · intro hp
    have hkeep : ∀ q, (m.setPte envid pn q).spaces e pn = some pte := by
      intro q
      rw [setPte_apply, if_neg (fun hc => hne hc.1.symm), hpte]
    have hp' : pte.perm &&& pteW ≠ 0 ∨ pte.perm &&& pteCOW ≠ 0 := hp
    rw [dupPerm, if_pos hp'] at hw ⊢
    rw [duppage, huvpt, if_neg hok, if_pos hp', sysPageMap_eq hpte hw]
    exact sysPageMap_eq (hkeep _) hw
  · intro hp
    have hp' : ¬ (pte.perm &&& pteW ≠ 0 ∨ pte.perm &&& pteCOW ≠ 0) := hp
    rw [dupPerm, if_neg hp'] at hw ⊢
    rw [duppage, huvpt, if_neg hok, if_neg hp', sysPageMap_eq hpte hw]

/-- A turn of the loop of `fork`: it passes the page over, or duplicates
it. -/
structure Duplicated (m m' : Machine) (e envid : Pid) (pn : Nat) (pte : Pte) : Prop where
  mapped : m.spaces e pn = some pte
  readable : Readable pte
  contents : m'.contents = m.contents
  status : m'.status = m.status
  spaces : ∀ x b, m'.spaces x b = if b = pn ∧ (x = envid ∨ x = e ∧ Private pte) then
    some ⟨pte.page, dupPerm pte.perm⟩ else m.spaces x b

theorem forkPage_spec (m : Machine) (pn : Nat) (hne : envid ≠ e) :
    (forkPage m e envid pn = some m ∧
      (pn = exstk ∨ ∀ pte, m.spaces e pn = some pte → ¬ Readable pte)) ∨
    ∃ pte m', forkPage m e envid pn = some m' ∧ Duplicated m m' e envid pn pte := by
  unfold forkPage
  split
  · rename_i hstk
    exact Or.inl ⟨rfl, Or.inl hstk⟩
  · split
    · rename_i hskip
      refine Or.inl ⟨rfl, Or.inr (fun pte hpte hr => ?_)⟩
      have huvpt : uvptPerm m e pn = pte.perm := by
        simp [uvptPerm, hpte]
      rw [huvpt] at hskip
      rcases hskip with hp | hu
      · exact hr.1 hp
      · exact hr.2 hu
    · rename_i hok
      rw [not_or] at hok
      cases hpte : m.spaces e pn with
      | none =>
          have huvpt : uvptPerm m e pn = 0 := by
            simp [uvptPerm, hpte]
          rw [huvpt] at hok
          exact absurd BitVec.zero_and hok.1
      | some pte =>
          have huvpt : uvptPerm m e pn = pte.perm := by
            simp [uvptPerm, hpte]
          have hr : Readable pte := by
            rw [huvpt] at hok
            exact hok
          obtain ⟨hshared, hro⟩ := duppage_eq hpte hr hne
          by_cases hp : Private pte
          · refine Or.inr ⟨pte, _, hshared hp, hpte, hr, rfl, rfl, fun x b => ?_⟩
            rw [setPte_apply, setPte_apply]
            by_cases hb : b = pn
            · by_cases hx : x = e
              · simp [hb, hx, hp]
              · simp [hb, hx]
            · simp [hb]
          · refine Or.inr ⟨pte, _, hro hp, hpte, hr, rfl, rfl, fun x b => ?_⟩
            rw [setPte_apply]
            by_cases hb : b = pn
            · by_cases hx : x = envid
              · simp [hb, hx]
              · simp [hb, hx, hp]
            · simp [hb]

/-! ## `pgfault` -/

/-- The test of `pgfault` never fires: its two halves have no bit in
common. -/
theorem pgfault_test (err x : Word) : ¬ (err &&& fecWr) &&& lnot x ≠ 0 := by
  rw [not_not, lnot]
  split
  · rw [BitVec.and_assoc, show fecWr &&& 1 = 0 by decide]
    exact BitVec.and_zero
  · exact BitVec.and_zero

/-- The bits of a copy. -/
abbrev copyPerm : Word := pteP ||| pteU ||| (pteP ||| pteU ||| pteW)

theorem copyPerm_spec : copyPerm &&& pteP ≠ 0 ∧ copyPerm &&& pteU ≠ 0 ∧ copyPerm &&& pteW ≠ 0 := by
  decide

/-- A copy of the page takes its place, and the page at `PFTEMP` goes. -/
structure Copied (m m' : Machine) (e : Pid) (pn page : Nat) (pte : Pte) : Prop where
  status : m'.status = m.status
  spaces : ∀ x b, m'.spaces x b = if x = e ∧ b = pftemp then none
    else if x = e ∧ b = pn then some ⟨page, copyPerm⟩ else m.spaces x b
  others : ∀ q, q ≠ page → m'.contents q = m.contents q
  copy : pn ≠ pftemp → page ≠ pte.page → m'.contents page = m.contents pte.page

/-- The page at `PFTEMP` after `sys_page_alloc`. -/
theorem sysPageAlloc_pftemp (m : Machine) (e : Pid) (page : Nat) :
    (sysPageAlloc m e pftemp (pteP ||| pteU ||| pteW) page).spaces e pftemp =
      some ⟨page, pteP ||| pteU ||| pteW ||| pteU ||| pteP⟩ := by
  rw [sysPageAlloc, setPte_apply, if_pos ⟨rfl, rfl⟩]

theorem sysPageAlloc_other {b : Nat} {x : Pid} (hne : ¬ (x = e ∧ b = pn)) (perm : Word) :
    (sysPageAlloc m e pn perm page).spaces x b = m.spaces x b := by
  rw [sysPageAlloc, setPte_apply, if_neg hne]
  rfl

theorem pgfault_spec (hpte : m.spaces e pn = some pte) (err : Word) (page : Nat) :
    ∃ m', pgfault m e pn err page = some m' ∧ Copied m m' e pn page pte := by
  rw [pgfault, if_neg (pgfault_test _ _)]
  -- the state after each of the calls
  have htemp := sysPageAlloc_pftemp m e page
  have hother : ∀ q, q ≠ page →
      (sysPageAlloc m e pftemp (pteP ||| pteU ||| pteW) page).contents q = m.contents q :=
    fun q hq => Function.update_of_ne hq ..
  have hstatus : (sysPageAlloc m e pftemp (pteP ||| pteU ||| pteW) page).status = m.status := rfl
  have hframe : ∀ x b, ¬ (x = e ∧ b = pftemp) →
      (sysPageAlloc m e pftemp (pteP ||| pteU ||| pteW) page).spaces x b = m.spaces x b :=
    fun x b hxb => sysPageAlloc_other hxb _
  dsimp only
  generalize sysPageAlloc m e pftemp (pteP ||| pteU ||| pteW) page = m₁ at htemp hframe hother hstatus ⊢
  -- at `PFTEMP` itself the page is copied to itself
  obtain ⟨src, hsrc, hsame⟩ : ∃ src, m₁.spaces e pn = some src ∧ (pn ≠ pftemp → src = pte) := by
    by_cases hne : pn = pftemp
    · exact ⟨_, hne ▸ htemp, fun hc => absurd hne hc⟩
    · exact ⟨pte, (hframe e pn (fun hc => hne hc.2)).trans hpte, fun _ => rfl⟩
  have hmove : memmove m₁ e pftemp pn = some (m₁.setContent page (m₁.contents src.page)) := by
    simp only [memmove, htemp, hsrc]
  generalize hm₂ : m₁.setContent page (m₁.contents src.page) = m₂ at hmove
  have htemp₂ : m₂.spaces e pftemp = some ⟨page, pteP ||| pteU ||| pteW ||| pteU ||| pteP⟩ := by
    rw [← hm₂]
    exact htemp
  have hmap : sysPageMap m₂ e pftemp e pn (pteP ||| pteU ||| pteW) =
      some (m₂.setPte e pn (some ⟨page, copyPerm⟩)) := by
    simp only [sysPageMap, htemp₂]
    rw [if_neg (by decide)]
  refine ⟨sysPageUnmap (m₂.setPte e pn (some ⟨page, copyPerm⟩)) e pftemp, ?_, ?_, ?_, ?_, ?_⟩
  · show (memmove m₁ e pftemp pn).bind _ = _
    rw [hmove, Option.bind_some]
    show (sysPageMap m₂ e pftemp e pn (pteP ||| pteU ||| pteW)).bind _ = _
    rw [hmap, Option.bind_some]
    rfl
  · rw [← hstatus, ← hm₂]
    rfl
  · intro x b
    rw [sysPageUnmap, setPte_apply, setPte_apply]
    by_cases hb : x = e ∧ b = pftemp
    · rw [if_pos hb, if_pos hb]
    · rw [if_neg hb, if_neg hb, ← hframe x b hb, ← hm₂]
      rfl
  · intro q hq
    rw [← hother q hq, ← hm₂]
    exact Function.update_of_ne hq ..
  · intro hne hpage
    rw [← hother pte.page hpage.symm, ← hsame hne, ← hm₂]
    exact Function.update_self ..

/-! ## The invariant -/

/-- What every step keeps. -/
structure CowInv (outside tracked : Nat → Prop) (init : Nat → Content) (m : Machine)
    (h : List Event) : Prop where
  exclusive : Exclusive outside m
  absent : ∀ e, m.status e = .absent → ∀ pn, m.spaces e pn = none
  mapped : ∀ e pn, Alive m e → tracked pn →
    ∃ pte, m.spaces e pn = some pte ∧ Readable pte ∧ Private pte
  contents : ∀ e pn pte, tracked pn → m.spaces e pn = some pte →
    m.contents pte.page = view init h e pn
  child : ∀ e envid pnum, m.status e = .forking envid pnum → m.status envid = .embryo
  sole : ∀ e e' envid pnum pnum', m.status e = .forking envid pnum →
    m.status e' = .forking envid pnum' → e' = e
  done : ∀ e envid pnum pn, m.status e = .forking envid pnum → tracked pn → pn < pnum →
    ∃ pte, m.spaces envid pn = some pte ∧ Readable pte ∧ Private pte
  todo : ∀ e envid pnum pn, m.status e = .forking envid pnum → pnum ≤ pn →
    m.spaces envid pn = none ∧ view init h envid pn = view init h e pn

variable {outside tracked : Nat → Prop}

theorem Alive.ne_embryo (ha : Alive m e) (hc : m.status envid = .embryo) : e ≠ envid := by
  rintro rfl
  rcases ha with hr | ⟨c, n, hf⟩
  · rw [hr] at hc
    cases hc
  · rw [hf] at hc
    cases hc

/-- The one place of a writable page. -/
theorem CowInv.eq_of_page (hi : CowInv outside tracked init m h) (hpte : m.spaces e pn = some pte)
    (hw : pte.perm &&& pteW ≠ 0) {x : Pid} {b : Nat} {q : Pte} (hq : m.spaces x b = some q)
    (hpage : q.page = pte.page) : x = e ∧ b = pn :=
  (hi.exclusive e pn pte hpte hw).2 x b q hq hpage

/-! ## One write -/

theorem CowInv.write (hi : CowInv outside tracked init m h) (ha : Alive m e)
    (hpte : m.spaces e pn = some pte) (hw : pte.perm &&& pteW ≠ 0) (off : Nat) (byte : BitVec 8) :
    CowInv outside tracked init
      (m.setContent pte.page (Function.update (m.contents pte.page) off byte))
      (h ++ [.write e pn off byte (heirOf m e pn)]) where
  exclusive := hi.exclusive
  absent := hi.absent
  mapped := hi.mapped
  contents := by
    intro x b q hb hq
    replace hq : m.spaces x b = some q := hq
    rw [view_append_one]
    simp only [Machine.setContent, viewAfter]
    by_cases hpage : q.page = pte.page
    · obtain ⟨rfl, rfl⟩ := hi.eq_of_page hpte hw hq hpage
      rw [hpage, Function.update_self, if_pos ⟨rfl, Or.inl rfl⟩, hi.contents _ _ _ hb hpte]
    · rw [Function.update_of_ne hpage, hi.contents x b q hb hq, if_neg]
      rintro ⟨rfl, rfl | hheir⟩
      · rw [hpte] at hq
        cases hq
        exact hpage rfl
      · -- an heir has nothing mapped there yet
        unfold heirOf at hheir
        split at hheir
        · rename_i c n hf
          split at hheir
          · rename_i hle
            cases hheir
            rw [(hi.todo e x n b hf hle).1] at hq
            cases hq
          · cases hheir
        · cases hheir
  child := hi.child
  sole := hi.sole
  done := hi.done
  todo := by
    intro x c n b hf hle
    refine ⟨(hi.todo x c n b hf hle).1, ?_⟩
    rw [view_append_one]
    simp only [viewAfter]
    have hold := (hi.todo x c n b hf hle).2
    have hembryo := hi.child x c n hf
    have hce : c ≠ e := (ha.ne_embryo hembryo).symm
    by_cases hxe : x = e
    · subst hxe
      have hheir : heirOf m x pn = if n ≤ pn then some c else none := by
        replace hf : m.status x = .forking c n := hf
        simp [heirOf, hf]
      by_cases hb : b = pn
      · subst hb
        rw [hheir, if_pos hle, if_pos ⟨rfl, Or.inr rfl⟩, if_pos ⟨rfl, Or.inl rfl⟩, hold]
      · rw [if_neg (fun hc => hb hc.1), if_neg (fun hc => hb hc.1), hold]
    · have hnot : ∀ y, y = c ∨ y = x → heirOf m e pn ≠ some y := by
        intro y hy hheir
        unfold heirOf at hheir
        split at hheir
        · rename_i c' n' hf'
          split at hheir
          · cases hheir
            rcases hy with rfl | rfl
            · exact hxe (hi.sole e x y n' n hf' hf)
            · have hbad := hi.child e y n' hf'
              replace hf : m.status y = .forking c n := hf
              rw [hf] at hbad
              cases hbad
          · cases hheir
        · cases hheir
      rw [if_neg, if_neg, hold]
      · rintro ⟨-, hc | hc⟩
        · exact hxe hc
        · exact hnot x (Or.inr rfl) hc
      · rintro ⟨-, hc | hc⟩
        · exact hce hc
        · exact hnot c (Or.inl rfl) hc

/-! ## A fresh page -/

/-- A page nobody maps can be mapped writable, at one place. -/
theorem Exclusive.mapFresh (hex : Exclusive outside m) (hfresh : Fresh outside m page) (e : Pid)
    (pn : Nat) (hsp : ∀ x b q, m'.spaces x b = some q →
      x = e ∧ b = pn ∧ q.page = page ∨ m.spaces x b = some q) :
    Exclusive outside m' := by
  intro x b q hq hw
  rcases hsp x b q hq with ⟨rfl, rfl, hnew⟩ | hold
  · refine ⟨hnew ▸ hfresh.1, fun y c q' hq' hpage => ?_⟩
    rcases hsp y c q' hq' with ⟨rfl, rfl, -⟩ | hold'
    · exact ⟨rfl, rfl⟩
    · exact absurd (hpage.trans hnew) (hfresh.2 y c q' hold')
  · refine ⟨(hex x b q hold hw).1, fun y c q' hq' hpage => ?_⟩
    rcases hsp y c q' hq' with ⟨-, -, hnew⟩ | hold'
    · exact absurd (hpage.symm.trans hnew) (hfresh.2 x b q hold)
    · exact (hex x b q hold hw).2 y c q' hold' hpage

theorem Exclusive.mapOne (hex : Exclusive outside m) (hfresh : Fresh outside m page) {perm : Word}
    (hsp : ∀ x b, m'.spaces x b = if x = e ∧ b = pn then some ⟨page, perm⟩ else m.spaces x b) :
    Exclusive outside m' := by
  refine hex.mapFresh hfresh e pn (fun x b q hq => ?_)
  rw [hsp] at hq
  split at hq
  · rename_i hxb
    cases hq
    exact Or.inl ⟨hxb.1, hxb.2, rfl⟩
  · exact Or.inr hq

/-! ## One fault -/

/-- What is mapped after a fault is the copy, or was mapped before. -/
theorem Copied.mapped (hc : Copied m m' e pn page pte) {x : Pid} {b : Nat} {q : Pte}
    (hq : m'.spaces x b = some q) :
    ¬ (x = e ∧ b = pftemp) ∧
      ((x = e ∧ b = pn) ∧ q = ⟨page, copyPerm⟩ ∨ ¬ (x = e ∧ b = pn) ∧ m.spaces x b = some q) := by
  rw [hc.spaces] at hq
  split at hq
  · cases hq
  · rename_i htemp
    refine ⟨htemp, ?_⟩
    split at hq
    · rename_i hxb
      cases hq
      exact Or.inl ⟨hxb, rfl⟩
    · rename_i hxb
      exact Or.inr ⟨hxb, hq⟩

theorem Copied.exclusive (hc : Copied m m' e pn page pte) (hex : Exclusive outside m)
    (hfresh : Fresh outside m page) : Exclusive outside m' := by
  refine hex.mapFresh hfresh e pn (fun x b q hq => ?_)
  rcases (hc.mapped hq).2 with ⟨⟨hx, hb⟩, rfl⟩ | ⟨-, hold⟩
  · exact Or.inl ⟨hx, hb, rfl⟩
  · exact Or.inr hold

theorem CowInv.fault (hi : CowInv outside tracked init m h) (htemp : ¬ tracked pftemp)
    (ha : Alive m e) (hpte : m.spaces e pn = some pte) (hfresh : Fresh outside m page)
    (hc : Copied m m' e pn page pte) : CowInv outside tracked init m' h := by
  have htr : ∀ x b, tracked b → ¬ (x = e ∧ b = pftemp) := by
    rintro x b hb ⟨-, rfl⟩
    exact htemp hb
  have halive : ∀ x, Alive m' x ↔ Alive m x := by
    intro x
    rw [Alive, Alive, hc.status]
  have hother : ∀ x b, x ≠ e → m'.spaces x b = m.spaces x b := by
    intro x b hx
    rw [hc.spaces, if_neg (fun hxb => hx hxb.1), if_neg (fun hxb => hx hxb.1)]
  exact {
    exclusive := hc.exclusive hi.exclusive hfresh
    absent := by
      intro x hx b
      rw [hc.status] at hx
      have hxe : x ≠ e := by
        rintro rfl
        rcases ha with hr | ⟨c, n, hf⟩
        · rw [hr] at hx
          cases hx
        · rw [hf] at hx
          cases hx
      rw [hother x b hxe, hi.absent x hx b]
    mapped := by
      intro x b hx hb
      by_cases hxb : x = e ∧ b = pn
      · obtain ⟨hp, hu, hw⟩ := copyPerm_spec
        refine ⟨⟨page, copyPerm⟩, ?_, ⟨hp, hu⟩, Or.inl hw⟩
        rw [hc.spaces, if_neg (htr x b hb), if_pos hxb]
      · rw [hc.spaces, if_neg (htr x b hb), if_neg hxb]
        exact hi.mapped x b ((halive x).1 hx) hb
    contents := by
      intro x b q hb hq
      rcases (hc.mapped hq).2 with ⟨⟨rfl, rfl⟩, rfl⟩ | ⟨-, hold⟩
      · have hne : b ≠ pftemp := fun hbt => htemp (hbt ▸ hb)
        rw [hc.copy hne (fun heq => hfresh.2 x b pte hpte heq.symm), hi.contents x b pte hb hpte]
      · rw [hc.others q.page (hfresh.2 x b q hold), hi.contents x b q hb hold]
    child := by
      rw [hc.status]
      exact hi.child
    sole := by
      rw [hc.status]
      exact hi.sole
    done := by
      intro x c n b hf hb hlt
      rw [hc.status] at hf
      rw [hother c b (ha.ne_embryo (hi.child x c n hf)).symm]
      exact hi.done x c n b hf hb hlt
    todo := by
      intro x c n b hf hle
      rw [hc.status] at hf
      rw [hother c b (ha.ne_embryo (hi.child x c n hf)).symm]
      exact hi.todo x c n b hf hle }

/-! ## The steps of `fork` -/

theorem setStatus_self (m : Machine) (e : Pid) (s : Status) : (m.setStatus e s).status e = s :=
  Function.update_self ..

theorem setStatus_of_ne (m : Machine) {e x : Pid} (s : Status) (hx : x ≠ e) :
    (m.setStatus e s).status x = m.status x :=
  Function.update_of_ne hx ..

/-- What is mapped after `set_pgfault_handler` and `sys_exofork`, for a
child that did not exist. -/
theorem forkStart_spaces (habsent : ∀ b, m.spaces envid b = none) (hne : envid ≠ e) (page : Nat)
    (x : Pid) (b : Nat) : (forkStart m e envid page).spaces x b =
      if m.handler e = false ∧ x = e ∧ b = exstk then
        some ⟨page, pteU ||| pteP ||| pteW ||| pteU ||| pteP⟩
      else m.spaces x b := by
  by_cases hx : x = envid
  · subst hx
    rw [if_neg (fun hc => hne hc.2.1), habsent]
    simp [forkStart, Machine.setStatus]
  · by_cases hh : m.handler e = false
    · have hset : (forkStart m e envid page).spaces x b =
          (sysPageAlloc m e exstk (pteU ||| pteP ||| pteW) page).spaces x b := by
        simp [forkStart, setPgfaultHandler, Machine.setStatus, hh, hx]
      rw [hset, sysPageAlloc, setPte_apply]
      simp [hh, Machine.setContent]
    · rw [if_neg (fun hc => hh hc.1)]
      simp [forkStart, setPgfaultHandler, Machine.setStatus, hh, hx]

theorem forkStart_contents {q : Nat} (hq : q ≠ page) :
    (forkStart m e envid page).contents q = m.contents q := by
  by_cases hh : m.handler e = false
  · simp [forkStart, setPgfaultHandler, Machine.setStatus, sysPageAlloc, Machine.setContent,
      Machine.setPte, hh, hq]
  · simp [forkStart, setPgfaultHandler, Machine.setStatus, hh]

theorem forkStart_status (x : Pid) : (forkStart m e envid page).status x =
    if x = e then .forking envid 0 else if x = envid then .embryo else m.status x := by
  have hset : (forkStart m e envid page).status =
      Function.update (Function.update m.status envid .embryo) e (.forking envid 0) := by
    by_cases hh : m.handler e = false
    · simp [forkStart, setPgfaultHandler, Machine.setStatus, sysPageAlloc, Machine.setContent,
        Machine.setPte, hh]
    · simp [forkStart, setPgfaultHandler, Machine.setStatus, hh]
  rw [hset, Function.update_apply, Function.update_apply]

/-- A `fork` that was going on before has another parent and another
child. -/
theorem CowInv.forkStart_forking (hi : CowInv outside tracked init m h)
    (hr : m.status e = .running) (habs : m.status envid = .absent) {x c : Pid} {n : Nat}
    (hf : (forkStart m e envid page).status x = .forking c n) :
    x = e ∧ c = envid ∧ n = 0 ∨ m.status x = .forking c n ∧ x ≠ envid ∧ c ≠ envid ∧ c ≠ e := by
  rw [forkStart_status] at hf
  by_cases hx : x = e
  · rw [if_pos hx] at hf
    cases hf
    exact Or.inl ⟨hx, rfl, rfl⟩
  · rw [if_neg hx] at hf
    by_cases hx' : x = envid
    · rw [if_pos hx'] at hf
      cases hf
    · rw [if_neg hx'] at hf
      have hc := hi.child x c n hf
      refine Or.inr ⟨hf, hx', ?_, ?_⟩
      · rintro rfl
        rw [habs] at hc
        cases hc
      · rintro rfl
        rw [hr] at hc
        cases hc

/-- The exception stack, if there is a new one, is a new page. -/
theorem CowInv.forkStart_exclusive (hi : CowInv outside tracked init m h)
    (habs : m.status envid = .absent) (hne : envid ≠ e) (hfresh : Fresh outside m page) :
    Exclusive outside (forkStart m e envid page) := by
  have hsp := forkStart_spaces (hi.absent envid habs) hne page
  by_cases hh : m.handler e = false
  · have hset : ∀ x b, (UserLib.forkStart m e envid page).spaces x b =
        if x = e ∧ b = exstk then some ⟨page, pteU ||| pteP ||| pteW ||| pteU ||| pteP⟩
        else m.spaces x b := by
      intro x b
      rw [hsp]
      simp [hh]
    exact hi.exclusive.mapOne hfresh hset
  · have hsame : (UserLib.forkStart m e envid page).spaces = m.spaces := by
      funext x b
      rw [hsp, if_neg (fun hc => hh hc.1)]
    intro x b q hq hw
    rw [hsame] at hq ⊢
    exact hi.exclusive x b q hq hw

theorem CowInv.forkStart (hi : CowInv outside tracked init m h) (hstk : ¬ tracked exstk)
    (hr : m.status e = .running) (habs : m.status envid = .absent)
    (hfresh : Fresh outside m page) :
    CowInv outside tracked init (forkStart m e envid page) (h ++ [.fork e envid]) := by
  have hne : envid ≠ e := by
    rintro rfl
    rw [hr] at habs
    cases habs
  have hsp := forkStart_spaces (hi.absent envid habs) hne page
  have hkeep : ∀ x b, b ≠ exstk → (UserLib.forkStart m e envid page).spaces x b = m.spaces x b := by
    intro x b hb
    rw [hsp, if_neg (fun hc => hb hc.2.2)]
  have hkeep' : ∀ x b, x ≠ e → (UserLib.forkStart m e envid page).spaces x b = m.spaces x b := by
    intro x b hx
    rw [hsp, if_neg (fun hc => hx hc.2.1)]
  have htr : ∀ b, tracked b → b ≠ exstk := by
    rintro b hb rfl
    exact hstk hb
  have hforking : ∀ x c n, (UserLib.forkStart m e envid page).status x = .forking c n →
      x = e ∧ c = envid ∧ n = 0 ∨
        m.status x = .forking c n ∧ x ≠ envid ∧ c ≠ envid ∧ c ≠ e :=
    fun _ _ _ hf => hi.forkStart_forking hr habs hf
  exact {
    exclusive := hi.forkStart_exclusive habs hne hfresh
    absent := by
      intro x hx b
      rw [forkStart_status] at hx
      by_cases hxe : x = e
      · rw [if_pos hxe] at hx
        cases hx
      · rw [if_neg hxe] at hx
        by_cases hxc : x = envid
        · rw [if_pos hxc] at hx
          cases hx
        · rw [if_neg hxc] at hx
          rw [hkeep' x b hxe, hi.absent x hx b]
    mapped := by
      intro x b hx hb
      rw [hkeep x b (htr b hb)]
      refine hi.mapped x b ?_ hb
      rw [Alive, forkStart_status] at hx
      by_cases hxe : x = e
      · exact Or.inl (hxe ▸ hr)
      · rw [if_neg hxe] at hx
        by_cases hxc : x = envid
        · rw [if_pos hxc] at hx
          rcases hx with hx | ⟨c, n, hx⟩
          · cases hx
          · cases hx
        · rw [if_neg hxc] at hx
          exact hx
    contents := by
      intro x b q hb hq
      rw [hkeep x b (htr b hb)] at hq
      have hxc : x ≠ envid := by
        rintro rfl
        rw [hi.absent x habs b] at hq
        cases hq
      rw [forkStart_contents (hfresh.2 x b q hq), view_append_one, viewAfter,
        Function.update_of_ne hxc, hi.contents x b q hb hq]
    child := by
      intro x c n hf
      rcases hforking x c n hf with ⟨rfl, rfl, -⟩ | ⟨hf, -, hc, hce⟩
      · rw [forkStart_status, if_neg hne, if_pos rfl]
      · rw [forkStart_status, if_neg hce, if_neg hc, hi.child x c n hf]
    sole := by
      intro x x' c n n' hf hf'
      rcases hforking x c n hf with ⟨rfl, rfl, -⟩ | ⟨hf, -, hc, -⟩
      · rcases hforking x' _ n' hf' with ⟨rfl, -, -⟩ | ⟨-, -, hc, -⟩
        · rfl
        · exact absurd rfl hc
      · rcases hforking x' c n' hf' with ⟨-, rfl, -⟩ | ⟨hf', -, -, -⟩
        · exact absurd rfl hc
        · exact hi.sole x x' c n n' hf hf'
    done := by
      intro x c n b hf hb hlt
      rcases hforking x c n hf with ⟨-, -, rfl⟩ | ⟨hf, -, -, -⟩
      · exact absurd hlt (Nat.not_lt_zero b)
      · rw [hkeep c b (htr b hb)]
        exact hi.done x c n b hf hb hlt
    todo := by
      intro x c n b hf hle
      rw [view_append_one, viewAfter]
      rcases hforking x c n hf with ⟨rfl, rfl, -⟩ | ⟨hf, hx, hc, hce⟩
      · refine ⟨?_, ?_⟩
        · rw [hkeep' _ b hne, hi.absent _ habs b]
        · rw [Function.update_self, Function.update_of_ne hne.symm]
      · rw [hkeep' c b hce, Function.update_of_ne hc, Function.update_of_ne hx]
        exact hi.todo x c n b hf hle }

/-- A turn of the loop that leaves page `pnum` in both processes, if it is
tracked, and touches nothing else. -/
structure Turned (outside tracked : Nat → Prop) (init : Nat → Content) (m m' : Machine)
    (h : List Event) (e envid : Pid) (pnum : Nat) : Prop where
  status : m'.status = m.status
  frame : ∀ x b, b ≠ pnum ∨ x ≠ e ∧ x ≠ envid → m'.spaces x b = m.spaces x b
  exclusive : Exclusive outside m'
  both : tracked pnum → ∀ x, x = e ∨ x = envid →
    ∃ pte, m'.spaces x pnum = some pte ∧ Readable pte ∧ Private pte
  contents : ∀ x b q, tracked b → m'.spaces x b = some q → m'.contents q.page = view init h x b

theorem CowInv.advance (hi : CowInv outside tracked init m h) {pnum : Nat}
    (hf : m.status e = .forking envid pnum)
    (ht : Turned outside tracked init m m' h e envid pnum) :
    CowInv outside tracked init (m'.setStatus e (.forking envid (pnum + 1))) h := by
  have hembryo := hi.child e envid pnum hf
  have hforking : ∀ x c n,
      (m'.setStatus e (.forking envid (pnum + 1))).status x = .forking c n →
      x = e ∧ c = envid ∧ n = pnum + 1 ∨ x ≠ e ∧ m.status x = .forking c n := by
    intro x c n hx
    by_cases hxe : x = e
    · subst hxe
      rw [setStatus_self] at hx
      cases hx
      exact Or.inl ⟨rfl, rfl, rfl⟩
    · rw [setStatus_of_ne _ _ hxe, ht.status] at hx
      exact Or.inr ⟨hxe, hx⟩
  -- the children of the other forks are not in this one
  have hchild : ∀ x c n, x ≠ e → m.status x = .forking c n → c ≠ e ∧ c ≠ envid := by
    intro x c n hxe hx
    refine ⟨?_, ?_⟩
    · rintro rfl
      have hc := hi.child x c n hx
      rw [hf] at hc
      cases hc
    · rintro rfl
      exact hxe (hi.sole e x c pnum n hf hx)
  exact {
    exclusive := ht.exclusive
    absent := by
      intro x hx b
      by_cases hxe : x = e
      · subst hxe
        rw [setStatus_self] at hx
        cases hx
      · rw [setStatus_of_ne _ _ hxe, ht.status] at hx
        have hxc : x ≠ envid := by
          rintro rfl
          rw [hembryo] at hx
          cases hx
        exact (ht.frame x b (Or.inr ⟨hxe, hxc⟩)).trans (hi.absent x hx b)
    mapped := by
      intro x b hx hb
      by_cases hxe : x = e
      · by_cases hbp : b = pnum
        · subst hbp
          exact ht.both hb x (Or.inl hxe)
        · obtain ⟨q, hq, hr⟩ := hi.mapped x b (Or.inr ⟨envid, pnum, hxe ▸ hf⟩) hb
          exact ⟨q, (ht.frame x b (Or.inl hbp)).trans hq, hr⟩
      · rw [Alive, setStatus_of_ne _ _ hxe, ht.status] at hx
        have hxc : x ≠ envid := Alive.ne_embryo hx hembryo
        obtain ⟨q, hq, hr⟩ := hi.mapped x b hx hb
        exact ⟨q, (ht.frame x b (Or.inr ⟨hxe, hxc⟩)).trans hq, hr⟩
    contents := ht.contents
    child := by
      intro x c n hx
      rcases hforking x c n hx with ⟨rfl, rfl, rfl⟩ | ⟨hxe, hx⟩
      · rw [setStatus_of_ne _ _ (Alive.ne_embryo (Or.inr ⟨c, pnum, hf⟩) hembryo).symm, ht.status,
          hembryo]
      · rw [setStatus_of_ne _ _ (hchild x c n hxe hx).1, ht.status, hi.child x c n hx]
    sole := by
      intro x x' c n n' hx hx'
      rcases hforking x c n hx with ⟨rfl, rfl, rfl⟩ | ⟨hxe, hx⟩
      · rcases hforking x' c n' hx' with ⟨rfl, -, -⟩ | ⟨hxe', hx'⟩
        · rfl
        · exact absurd rfl (hchild x' c n' hxe' hx').2
      · rcases hforking x' c n' hx' with ⟨-, hc, -⟩ | ⟨-, hx'⟩
        · exact absurd hc (hchild x c n hxe hx).2
        · exact hi.sole x x' c n n' hx hx'
    done := by
      intro x c n b hx hb hlt
      rcases hforking x c n hx with ⟨rfl, rfl, rfl⟩ | ⟨hxe, hx⟩
      · rcases Nat.lt_succ_iff_lt_or_eq.1 hlt with hlt | rfl
        · obtain ⟨q, hq, hr⟩ := hi.done x c pnum b hf hb hlt
          exact ⟨q, (ht.frame c b (Or.inl (Nat.ne_of_lt hlt))).trans hq, hr⟩
        · exact ht.both hb c (Or.inr rfl)
      · obtain ⟨q, hq, hr⟩ := hi.done x c n b hx hb hlt
        exact ⟨q, (ht.frame c b (Or.inr (hchild x c n hxe hx))).trans hq, hr⟩
    todo := by
      intro x c n b hx hle
      rcases hforking x c n hx with ⟨rfl, rfl, rfl⟩ | ⟨hxe, hx⟩
      · obtain ⟨hnone, hview⟩ := hi.todo x c pnum b hf (Nat.le_of_succ_le hle)
        exact ⟨(ht.frame c b (Or.inl (Nat.ne_of_gt hle))).trans hnone, hview⟩
      · obtain ⟨hnone, hview⟩ := hi.todo x c n b hx hle
        exact ⟨(ht.frame c b (Or.inr (hchild x c n hxe hx))).trans hnone, hview⟩ }

/-- Both mappings of a page that was duplicated lack `PTE_W`. -/
theorem CowInv.exclusive_duplicated (hi : CowInv outside tracked init m h) {pnum : Nat}
    (hd : Duplicated m m' e envid pnum pte) : Exclusive outside m' := by
  intro x b q hq hw
  rw [hd.spaces] at hq
  split at hq
  · cases hq
    exact absurd (dupPerm_spec pte.perm).1 hw
  · rename_i hxb
    refine ⟨(hi.exclusive x b q hq hw).1, fun y c q' hq' hpage => ?_⟩
    rw [hd.spaces] at hq'
    split at hq'
    · -- then `q` is the page that was duplicated, which was writable
      cases hq'
      obtain ⟨rfl, rfl⟩ := hi.eq_of_page hq hw hd.mapped hpage
      have heq := hd.mapped
      rw [hq] at heq
      cases heq
      exact absurd ⟨rfl, Or.inr ⟨rfl, Or.inl hw⟩⟩ hxb
    · exact (hi.exclusive x b q hq hw).2 y c q' hq' hpage

theorem CowInv.turned (hi : CowInv outside tracked init m h) {pnum : Nat}
    (hf : m.status e = .forking envid pnum) (hd : Duplicated m m' e envid pnum pte) :
    Turned outside tracked init m m' h e envid pnum where
  status := hd.status
  frame := by
    intro x b hxb
    rw [hd.spaces, if_neg]
    rintro ⟨hb, hx⟩
    rcases hxb with hb' | ⟨hxe, hxc⟩
    · exact hb' hb
    · rcases hx with hx | ⟨hx, -⟩
      · exact hxc hx
      · exact hxe hx
  exclusive := hi.exclusive_duplicated hd
  both := by
    intro hb x hx
    obtain ⟨q, hq, hr, hp⟩ := hi.mapped e pnum (Or.inr ⟨envid, pnum, hf⟩) hb
    rw [hd.mapped] at hq
    cases hq
    obtain ⟨-, hP, hU, hC⟩ := dupPerm_spec pte.perm
    refine ⟨⟨pte.page, dupPerm pte.perm⟩, ?_, ⟨hP, hU⟩, Or.inr (hC hp)⟩
    rw [hd.spaces, if_pos]
    rcases hx with rfl | rfl
    · exact ⟨rfl, Or.inr ⟨rfl, hp⟩⟩
    · exact ⟨rfl, Or.inl rfl⟩
  contents := by
    intro x b q hb hq
    rw [hd.contents]
    rw [hd.spaces] at hq
    split at hq
    · rename_i hxb
      obtain ⟨rfl, hx⟩ := hxb
      cases hq
      rw [hi.contents e b pte hb hd.mapped]
      rcases hx with rfl | ⟨rfl, -⟩
      · exact (hi.todo e x b b hf (Nat.le_refl b)).2.symm
      · rfl
    · exact hi.contents x b q hb hq

theorem CowInv.passedOver (hi : CowInv outside tracked init m h) {pnum : Nat}
    (hnot : ¬ tracked pnum) :
    Turned outside tracked init m m h e envid pnum where
  status := rfl
  frame := fun _ _ _ => rfl
  exclusive := hi.exclusive
  both := fun hb => absurd hb hnot
  contents := hi.contents

theorem CowInv.forkPage (hi : CowInv outside tracked init m h) (hstk : ¬ tracked exstk) {pnum : Nat}
    (hf : m.status e = .forking envid pnum) (hturn : forkPage m e envid pnum = some m') :
    CowInv outside tracked init (m'.setStatus e (.forking envid (pnum + 1))) h := by
  have halive : Alive m e := Or.inr ⟨envid, pnum, hf⟩
  have hne := (halive.ne_embryo (hi.child e envid pnum hf)).symm
  rcases forkPage_spec m pnum hne with ⟨heq, hskip⟩ | ⟨pte, m₁, heq, hd⟩
  · rw [heq] at hturn
    cases hturn
    refine hi.advance hf (hi.passedOver ?_)
    rcases hskip with rfl | hunread
    · exact hstk
    · intro hb
      obtain ⟨q, hq, hr, -⟩ := hi.mapped e pnum halive hb
      exact hunread q hq hr
  · rw [heq] at hturn
    cases hturn
    exact hi.advance hf (hi.turned hf hd)

theorem forkEnd_spaces (x : Pid) (b : Nat) : (forkEnd m e envid page).spaces x b =
    if x = envid ∧ b = exstk then some ⟨page, pteU ||| pteP ||| pteW ||| pteU ||| pteP⟩
    else m.spaces x b :=
  setPte_apply ..

theorem forkEnd_status (x : Pid) : (forkEnd m e envid page).status x =
    if x = e ∨ x = envid then .running else m.status x := by
  show Function.update (Function.update m.status envid .running) e .running x = _
  by_cases hx : x = e
  · rw [if_pos (Or.inl hx), hx, Function.update_self]
  · rw [Function.update_of_ne hx]
    by_cases hx' : x = envid
    · rw [if_pos (Or.inr hx'), hx', Function.update_self]
    · rw [Function.update_of_ne hx', if_neg (not_or.2 ⟨hx, hx'⟩)]

theorem CowInv.forkEnd (hi : CowInv outside tracked init m h) (hstk : ¬ tracked exstk)
    (hbelow : ∀ b, tracked b → b < pnumEnd) (hf : m.status e = .forking envid pnumEnd)
    (hfresh : Fresh outside m page) :
    CowInv outside tracked init (forkEnd m e envid page) h := by
  have hkeep : ∀ x b, x ≠ envid ∨ b ≠ exstk →
      (UserLib.forkEnd m e envid page).spaces x b = m.spaces x b := by
    intro x b hxb
    rw [forkEnd_spaces, if_neg]
    rintro ⟨hx, hb⟩
    rcases hxb with hx' | hb'
    · exact hx' hx
    · exact hb' hb
  have htr : ∀ b, tracked b → b ≠ exstk := by
    rintro b hb rfl
    exact hstk hb
  -- the forks that still go on are others
  have hforking : ∀ x c n, (UserLib.forkEnd m e envid page).status x = .forking c n →
      m.status x = .forking c n ∧ c ≠ e ∧ c ≠ envid := by
    intro x c n hx
    rw [forkEnd_status] at hx
    by_cases hxe : x = e ∨ x = envid
    · rw [if_pos hxe] at hx
      cases hx
    · rw [if_neg hxe] at hx
      rw [not_or] at hxe
      have hc := hi.child x c n hx
      refine ⟨hx, ?_, ?_⟩
      · rintro rfl
        rw [hf] at hc
        cases hc
      · rintro rfl
        exact hxe.1 (hi.sole e x c pnumEnd n hf hx)
  exact {
    exclusive := hi.exclusive.mapOne hfresh forkEnd_spaces
    absent := by
      intro x hx b
      rw [forkEnd_status] at hx
      by_cases hxe : x = e ∨ x = envid
      · rw [if_pos hxe] at hx
        cases hx
      · rw [if_neg hxe] at hx
        rw [not_or] at hxe
        rw [hkeep x b (Or.inl hxe.2), hi.absent x hx b]
    mapped := by
      intro x b hx hb
      rw [hkeep x b (Or.inr (htr b hb))]
      by_cases hxc : x = envid
      · exact hxc ▸ hi.done e envid pnumEnd b hf hb (hbelow b hb)
      · refine hi.mapped x b ?_ hb
        by_cases hxe : x = e
        · exact Or.inr ⟨envid, pnumEnd, hxe ▸ hf⟩
        · rw [Alive, forkEnd_status, if_neg (not_or.2 ⟨hxe, hxc⟩)] at hx
          exact hx
    contents := by
      intro x b q hb hq
      rw [hkeep x b (Or.inr (htr b hb))] at hq
      show Function.update m.contents page (fun _ => 0) q.page = _
      rw [Function.update_of_ne (hfresh.2 x b q hq), hi.contents x b q hb hq]
    child := by
      intro x c n hx
      obtain ⟨hx, hce, hcc⟩ := hforking x c n hx
      rw [forkEnd_status, if_neg (not_or.2 ⟨hce, hcc⟩), hi.child x c n hx]
    sole := by
      intro x x' c n n' hx hx'
      exact hi.sole x x' c n n' (hforking x c n hx).1 (hforking x' c n' hx').1
    done := by
      intro x c n b hx hb hlt
      obtain ⟨hx, -, hcc⟩ := hforking x c n hx
      rw [hkeep c b (Or.inl hcc)]
      exact hi.done x c n b hx hb hlt
    todo := by
      intro x c n b hx hle
      obtain ⟨hx, -, hcc⟩ := hforking x c n hx
      rw [hkeep c b (Or.inl hcc)]
      exact hi.todo x c n b hx hle }

/-! ## Whole runs -/

variable {written : Nat → Prop}

theorem CowInv.step (hi : CowInv outside tracked init m h) (hstk : ¬ tracked exstk)
    (htemp : ¬ tracked pftemp) (hbelow : ∀ b, tracked b → b < pnumEnd) {evs : List Event}
    (hs : Step outside written m evs m') : CowInv outside tracked init m' (h ++ evs) := by
  cases hs with
  | write ha _ hpte hw => exact hi.write ha hpte hw _ _
  | fault ha _ hpte _ hfresh hfault =>
      rw [List.append_nil]
      obtain ⟨m₁, heq, hc⟩ := pgfault_spec hpte 7 _
      rw [heq] at hfault
      cases hfault
      exact hi.fault htemp ha hpte hfresh hc
  | forkStart hr habs hfresh => exact hi.forkStart hstk hr habs hfresh
  | forkPage hf _ hturn =>
      rw [List.append_nil]
      exact hi.forkPage hstk hf hturn
  | forkEnd hf hfresh =>
      rw [List.append_nil]
      exact hi.forkEnd hstk hbelow hf hfresh

theorem CowInv.run (hstk : ¬ tracked exstk) (htemp : ¬ tracked pftemp)
    (hbelow : ∀ b, tracked b → b < pnumEnd) {m₀ : Machine}
    (hi : CowInv outside tracked init m₀ []) (hrun : Run outside written m₀ m h) :
    CowInv outside tracked init m h := by
  induction hrun with
  | start => exact hi
  | step _ hs ih => exact ih.step hstk htemp hbelow hs

/-- The invariant at the start. -/
theorem Parent.cowInv {m₀ : Machine} {r : Pid} (hp : Parent outside m₀ r) :
    CowInv outside (Followed m₀ r) (initialContent m₀ r) m₀ [] := by
  have hroot : ∀ x b q, m₀.spaces x b = some q → x = r := by
    intro x b q hq
    by_contra hx
    rw [(hp.alone x hx).2 b] at hq
    cases hq
  have hnofork : ∀ x c n, m₀.status x ≠ .forking c n := by
    intro x c n hf
    by_cases hx : x = r
    · rw [hx, hp.running] at hf
      cases hf
    · rw [(hp.alone x hx).1] at hf
      cases hf
  exact {
    exclusive := by
      intro x b q hq hw
      obtain rfl := hroot x b q hq
      refine ⟨hp.unshared b q hq hw, fun y c q' hq' hpage => ?_⟩
      obtain rfl := hroot y c q' hq'
      exact ⟨rfl, hp.once c b q' q hq' hq hpage⟩
    absent := by
      intro x hx b
      by_cases hxr : x = r
      · rw [hxr, hp.running] at hx
        cases hx
      · exact (hp.alone x hxr).2 b
    mapped := by
      intro x b hx hb
      have hxr : x = r := by
        by_contra hxr
        rcases hx with hx | ⟨c, n, hx⟩
        · rw [(hp.alone x hxr).1] at hx
          cases hx
        · exact hnofork x c n hx
      rw [hxr]
      exact hb.1.2
    contents := by
      intro x b q _ hq
      obtain rfl := hroot x b q hq
      simp [initialContent, hq]
    child := fun x c n hf => absurd hf (hnofork x c n)
    sole := fun x _ c n _ hf => absurd hf (hnofork x c n)
    done := fun x c n _ hf => absurd hf (hnofork x c n)
    todo := fun x c n _ hf => absurd hf (hnofork x c n) }

theorem CowInv.isolates (hi : CowInv outside tracked init m h) :
    Isolates outside tracked init m h where
  reads := by
    intro x b hx hb
    obtain ⟨q, hq, hr, -⟩ := hi.mapped x b hx hb
    exact ⟨q, hq, hr, hi.contents x b q hb hq⟩
  exclusive := hi.exclusive
  forkRuns := by
    intro x c n hf
    have hne : c ≠ x := (Alive.ne_embryo (Or.inr ⟨c, n, hf⟩) (hi.child x c n hf)).symm
    rcases forkPage_spec m n hne with ⟨heq, -⟩ | ⟨pte, m₁, heq, -⟩
    · exact ⟨m, heq⟩
    · exact ⟨m₁, heq⟩
  faultRuns := by
    intro x b page hx hb
    obtain ⟨q, hq, -⟩ := hi.mapped x b hx hb
    obtain ⟨m₁, heq, -⟩ := pgfault_spec hq 7 page
    exact ⟨m₁, heq⟩

theorem Parent.isolates {m₀ : Machine} {r : Pid} (hp : Parent outside m₀ r)
    (hrun : Run outside written m₀ m h) :
    Isolates outside (Followed m₀ r) (initialContent m₀ r) m h := by
  have hbelow : ∀ b, Followed m₀ r b → b < pnumEnd := by
    rintro b ⟨⟨-, pte, hpte, -⟩, -⟩
    exact hp.below b pte hpte
  exact (CowInv.run (fun hb => hb.1.1 rfl) (fun hb => hb.2 rfl) hbelow hp.cowInv hrun).isolates

/-- Copy-on-write `fork` isolates parent and children. -/
theorem cow_isolates {outside : Nat → Prop} {m₀ : Machine} {r : Pid} (hp : Parent outside m₀ r)
    {m : Machine} {h : List Event} (hrun : Run outside (Tracked m₀ r) m₀ m h) :
    Isolates outside (Followed m₀ r) (initialContent m₀ r) m h :=
  hp.isolates hrun

/-! ## A parent that forks once -/

/-- The loop of `fork` runs to its end, and keeps whatever a duplication
keeps. -/
theorem run_loop {m₀ : Machine} (P : (Pid → Space) → Prop)
    (hP : ∀ m m' pn pte, Duplicated m m' e envid pn pte → P m.spaces → P m'.spaces)
    (hne : envid ≠ e) (hrun : Run outside tracked m₀ m h) (hf : m.status e = .forking envid 0)
    (hm : P m.spaces) (n : Nat) (hn : n ≤ pnumEnd) :
    ∃ m', Run outside tracked m₀ m' h ∧ m'.status e = .forking envid n ∧ P m'.spaces := by
  induction n with
  | zero => exact ⟨m, hrun, hf, hm⟩
  | succ n ih =>
      obtain ⟨m₁, hrun₁, hf₁, hm₁⟩ := ih (Nat.le_of_succ_le hn)
      have hturn : ∃ m', forkPage m₁ e envid n = some m' ∧ P m'.spaces := by
        rcases forkPage_spec m₁ n hne with ⟨heq, -⟩ | ⟨pte, m₂, heq, hd⟩
        · exact ⟨m₁, heq, hm₁⟩
        · exact ⟨m₂, heq, hP m₁ m₂ n pte hd hm₁⟩
      obtain ⟨m₂, heq, hm₂⟩ := hturn
      have hstep := hrun₁.step (.forkPage hf₁ hn heq)
      rw [List.append_nil] at hstep
      exact ⟨_, hstep, setStatus_self .., hm₂⟩

/-- A write to a page that is not writable: the fault, and the write
again. -/
theorem run_faultingWrite {m₀ : Machine} (hrun : Run outside tracked m₀ m h)
    (hr : m.status e = .running) (ht : tracked pn) (hne : pn ≠ pftemp)
    (hpte : m.spaces e pn = some pte) (hw : pte.perm &&& pteW = 0) (hfresh : Fresh outside m page)
    (off : Nat) (byte : BitVec 8) :
    ∃ m', Run outside tracked m₀ m' (h ++ [.write e pn off byte none]) ∧ m'.status = m.status ∧
      ∀ x b, m'.spaces x b = if x = e ∧ b = pftemp then none
        else if x = e ∧ b = pn then some ⟨page, copyPerm⟩ else m.spaces x b := by
  obtain ⟨m₁, hfault, hc⟩ := pgfault_spec hpte 7 page
  have hstep := hrun.step (.fault (Or.inl hr) ht hpte hw hfresh hfault)
  rw [List.append_nil] at hstep
  have hr₁ : m₁.status e = .running := by
    rw [hc.status, hr]
  have hcopy : m₁.spaces e pn = some ⟨page, copyPerm⟩ := by
    rw [hc.spaces, if_neg (fun hx => hne hx.2), if_pos ⟨rfl, rfl⟩]
  have hwrite : Step outside tracked m₁ [.write e pn off byte (heirOf m₁ e pn)] _ :=
    .write (Or.inl hr₁) ht hcopy copyPerm_spec.2.2
  rw [show heirOf m₁ e pn = none by simp [heirOf, hr₁]] at hwrite
  exact ⟨_, hstep.step hwrite, hc.status, hc.spaces⟩

/-- Process 0 with pages `0` and, if `temp`, `PFTEMP`; the first is
copy-on-write. -/
def demoParent (temp : Bool) : Machine where
  spaces e pn :=
    if e = 0 ∧ pn = 0 then some ⟨1, pteP ||| pteU ||| pteCOW⟩
    else if temp = true ∧ e = 0 ∧ pn = pftemp then some ⟨2, pteP ||| pteU ||| pteW⟩
    else none
  contents := fun _ _ => 0
  status e := if e = 0 then .running else .absent
  handler := fun _ => false

theorem demoParent_mapped {temp : Bool} {e : Pid} {pn : Nat} {pte : Pte}
    (hpte : (demoParent temp).spaces e pn = some pte) :
    e = 0 ∧ (pn = 0 ∧ pte.page = 1 ∨ pn = pftemp ∧ pte.page = 2) := by
  simp only [demoParent] at hpte
  split at hpte
  · rename_i hzero
    cases hpte
    exact ⟨hzero.1, Or.inl ⟨hzero.2, rfl⟩⟩
  · split at hpte
    · rename_i htemp
      cases hpte
      exact ⟨htemp.2.1, Or.inr ⟨htemp.2.2, rfl⟩⟩
    · cases hpte

theorem demoParent_parent (temp : Bool) : Parent (fun _ => False) (demoParent temp) 0 where
  running := rfl
  alone := by
    intro e he
    refine ⟨if_neg he, fun pn => ?_⟩
    simp [demoParent, he]
  below := by
    intro pn pte hpte
    rcases (demoParent_mapped hpte).2 with ⟨rfl, -⟩ | ⟨rfl, -⟩
    · decide
    · decide
  once := by
    intro pn pn' pte pte' hpte hpte' hpage
    rcases (demoParent_mapped hpte).2 with ⟨rfl, h₁⟩ | ⟨rfl, h₁⟩
    · rcases (demoParent_mapped hpte').2 with ⟨rfl, -⟩ | ⟨-, h₂⟩
      · rfl
      · rw [h₁, h₂] at hpage
        cases hpage
    · rcases (demoParent_mapped hpte').2 with ⟨-, h₂⟩ | ⟨rfl, -⟩
      · rw [h₁, h₂] at hpage
        cases hpage
      · rfl
  unshared := fun _ _ _ _ hout => hout

/-- The first four physical pages are all that is mapped, and page 0 is
not writable. -/
def DemoSpaces (spaces : Pid → Space) : Prop :=
  (∀ e pn pte, spaces e pn = some pte → pte.page < 4) ∧
    (∃ pte, spaces 0 0 = some pte) ∧ ∀ e pte, spaces e 0 = some pte → pte.perm &&& pteW = 0

theorem DemoSpaces.duplicated {m m' : Machine} (hd : Duplicated m m' e envid pn pte)
    (hs : DemoSpaces m.spaces) : DemoSpaces m'.spaces := by
  obtain ⟨hpages, ⟨q, hq⟩, hw⟩ := hs
  refine ⟨fun x b q' hq' => ?_, ?_, fun x q' hq' => ?_⟩
  · rw [hd.spaces] at hq'
    split at hq'
    · cases hq'
      exact hpages e pn pte hd.mapped
    · exact hpages x b q' hq'
  · rw [hd.spaces]
    split
    · exact ⟨_, rfl⟩
    · exact ⟨q, hq⟩
  · rw [hd.spaces] at hq'
    split at hq'
    · cases hq'
      exact (dupPerm_spec pte.perm).1
    · exact hw x q' hq'

/-- Process 0 has forked process 1. -/
theorem demoParent_forks (temp : Bool) (tracked : Nat → Prop) :
    ∃ m, Run (fun _ => False) tracked (demoParent temp) m [.fork 0 1] ∧ m.status 0 = .running ∧
      m.status 1 = .running ∧ (∀ e pn pte, m.spaces e pn = some pte → pte.page < 5) ∧
      (∃ pte, m.spaces 0 0 = some pte) ∧ ∀ e pte, m.spaces e 0 = some pte → pte.perm &&& pteW = 0 := by
  have hfresh : Fresh (fun _ => False) (demoParent temp) 3 := by
    refine ⟨fun hout => hout, fun e pn pte hpte => ?_⟩
    rcases (demoParent_mapped hpte).2 with ⟨-, hpage⟩ | ⟨-, hpage⟩
    · omega
    · omega
  have hsp := forkStart_spaces ((demoParent_parent temp).alone 1 (by decide)).2
    (show 1 ≠ 0 by decide) 3
  have hzero : ∀ e, (forkStart (demoParent temp) 0 1 3).spaces e 0 = (demoParent temp).spaces e 0 := by
    intro e
    rw [hsp, if_neg]
    rintro ⟨-, -, hstk⟩
    cases hstk
  have hdemo : DemoSpaces (forkStart (demoParent temp) 0 1 3).spaces := by
    refine ⟨fun e pn pte hpte => ?_, ⟨⟨1, pteP ||| pteU ||| pteCOW⟩, hzero 0⟩, fun e pte hpte => ?_⟩
    · rw [hsp] at hpte
      split at hpte
      · cases hpte
        decide
      · rcases (demoParent_mapped hpte).2 with ⟨-, hpage⟩ | ⟨-, hpage⟩
        · omega
        · omega
    · rw [hzero] at hpte
      obtain rfl := (demoParent_mapped hpte).1
      cases hpte
      decide
  have hstep : Step (fun _ => False) tracked (demoParent temp) [.fork 0 1]
      (forkStart (demoParent temp) 0 1 3) := .forkStart rfl rfl hfresh
  have hstart := Run.start.step hstep
  obtain ⟨m, hrun, hf, hpages, hmapped, hw⟩ := run_loop DemoSpaces
    (fun _ _ _ _ => DemoSpaces.duplicated) (by decide) hstart
    ((forkStart_status 0).trans (if_pos rfl)) hdemo pnumEnd (Nat.le_refl _)
  have hfree : Fresh (fun _ => False) m 4 :=
    ⟨fun hout => hout, fun e pn pte hpte => Nat.ne_of_lt (hpages e pn pte hpte)⟩
  have hkeep : ∀ e, (forkEnd m 0 1 4).spaces e 0 = m.spaces e 0 := by
    intro e
    rw [forkEnd_spaces, if_neg]
    rintro ⟨-, hstk⟩
    cases hstk
  have hend := hrun.step (.forkEnd hf hfree)
  refine ⟨forkEnd m 0 1 4, hend, forkEnd_status 0, forkEnd_status 1, fun e pn pte hpte => ?_, ?_,
    fun e pte hpte => hw e pte (hkeep e ▸ hpte)⟩
  · rw [forkEnd_spaces] at hpte
    split at hpte
    · cases hpte
      decide
    · exact Nat.lt_succ_of_lt (hpages e pn pte hpte)
  · rw [hkeep]
    exact hmapped

/-- The parent writes 7 and the child 8 to the first byte of page 0, each
with a fault. -/
def demoWrites : List Event := [.fork 0 1, .write 0 0 0 7 none, .write 1 0 0 8 none]

theorem demoParent_zero (temp : Bool) : Tracked (demoParent temp) 0 0 :=
  ⟨by decide, ⟨1, pteP ||| pteU ||| pteCOW⟩, rfl, ⟨by decide, by decide⟩, Or.inr (by decide)⟩

theorem demoParent_writes (temp : Bool) :
    ∃ m, Run (fun _ => False) (Tracked (demoParent temp) 0) (demoParent temp) m demoWrites ∧
      m.status 0 = .running ∧ m.status 1 = .running := by
  obtain ⟨m, hrun, hr, hchild, hpages, ⟨pte, hpte⟩, hw⟩ :=
    demoParent_forks temp (Tracked (demoParent temp) 0)
  have hfollowed : Followed (demoParent temp) 0 0 := ⟨demoParent_zero temp, by decide⟩
  obtain ⟨pte', hpte', -⟩ :=
    (demoParent_parent temp |>.isolates hrun).reads 1 0 (Or.inl hchild) hfollowed
  have hfree : Fresh (fun _ => False) m 5 :=
    ⟨fun hout => hout, fun e pn pte hpte => Nat.ne_of_lt (hpages e pn pte hpte)⟩
  obtain ⟨m₁, hrun₁, hst₁, hsp₁⟩ := run_faultingWrite hrun hr (demoParent_zero temp) (by decide)
    hpte (hw 0 pte hpte) hfree 0 7
  have hfree₁ : Fresh (fun _ => False) m₁ 6 := by
    refine ⟨fun hout => hout, fun e pn q hq => ?_⟩
    rw [hsp₁] at hq
    split at hq
    · cases hq
    · split at hq
      · cases hq
        decide
      · exact Nat.ne_of_lt (Nat.lt_succ_of_lt (hpages e pn q hq))
  have hzero₁ : m₁.spaces 1 0 = some pte' := by
    rw [hsp₁, if_neg (fun hc => absurd hc.1 (by decide)), if_neg (fun hc => absurd hc.1 (by decide))]
    exact hpte'
  obtain ⟨m₂, hrun₂, hst₂, -⟩ := run_faultingWrite hrun₁ (hst₁ ▸ hchild) (demoParent_zero temp)
    (by decide) hzero₁ (hw 1 pte' hpte') hfree₁ 0 8
  exact ⟨m₂, hrun₂, by rw [hst₂, hst₁, hr], by rw [hst₂, hst₁, hchild]⟩

theorem cow_isolates_demo :
    Parent (fun _ => False) (demoParent true) 0 ∧ Followed (demoParent true) 0 0 ∧
    ∃ m, Run (fun _ => False) (Tracked (demoParent true) 0) (demoParent true) m demoWrites ∧
      Isolates (fun _ => False) (Followed (demoParent true) 0) (initialContent (demoParent true) 0) m
        demoWrites ∧
      (∃ pte, m.spaces 0 0 = some pte ∧ m.contents pte.page 0 = 7 ∧ m.contents pte.page 1 = 0) ∧
      ∃ pte, m.spaces 1 0 = some pte ∧ m.contents pte.page 0 = 8 ∧ m.contents pte.page 1 = 0 := by
  have hzero : Followed (demoParent true) 0 0 := ⟨demoParent_zero true, by decide⟩
  obtain ⟨m, hrun, hr, hchild⟩ := demoParent_writes true
  have hiso := cow_isolates (demoParent_parent true) hrun
  obtain ⟨pte, hpte, -, hcont⟩ := hiso.reads 0 0 (Or.inl hr) hzero
  obtain ⟨pte', hpte', -, hcont'⟩ := hiso.reads 1 0 (Or.inl hchild) hzero
  refine ⟨demoParent_parent true, hzero, m, hrun, hiso, ⟨pte, hpte, ?_, ?_⟩, pte', hpte', ?_, ?_⟩
  · rw [hcont]
    rfl
  · rw [hcont]
    rfl
  · rw [hcont']
    rfl
  · rw [hcont']
    rfl

/-- With a page of its own at `PFTEMP` the parent loses it: after the
`fork` it writes to page 0, and `pgfault` unmaps `PFTEMP`. -/
theorem pftemp_page_lost :
    Parent (fun _ => False) (demoParent true) 0 ∧ Tracked (demoParent true) 0 pftemp ∧
    ∃ m, Run (fun _ => False) (Tracked (demoParent true) 0) (demoParent true) m [.fork 0 1] ∧
      m.status 0 = .running ∧ m.status 1 = .running ∧ m.spaces 0 pftemp = none ∧
      ¬ Isolates (fun _ => False) (Tracked (demoParent true) 0)
        (initialContent (demoParent true) 0) m [.fork 0 1] := by
  have htemp : Tracked (demoParent true) 0 pftemp :=
    ⟨by decide, ⟨2, pteP ||| pteU ||| pteW⟩, rfl, ⟨by decide, by decide⟩, Or.inl (by decide)⟩
  obtain ⟨m, hrun, hr, hchild, hpages, ⟨pte, hpte⟩, hw⟩ :=
    demoParent_forks true (Tracked (demoParent true) 0)
  have hfree : Fresh (fun _ => False) m 5 :=
    ⟨fun hout => hout, fun e pn pte hpte => Nat.ne_of_lt (hpages e pn pte hpte)⟩
  obtain ⟨m', hfault, hc⟩ := pgfault_spec hpte 7 5
  have hlost : m'.spaces 0 pftemp = none := by
    rw [hc.spaces, if_pos ⟨rfl, rfl⟩]
  have hrun' := hrun.step (.fault (Or.inl hr) (demoParent_zero true) hpte (hw 0 pte hpte) hfree hfault)
  refine ⟨demoParent_parent true, htemp, m', hrun', ?_, ?_, hlost, fun hiso => ?_⟩
  · rw [hc.status, hr]
  · rw [hc.status, hchild]
  · obtain ⟨q, hq, -⟩ := hiso.reads 0 pftemp (Or.inl (by rw [hc.status, hr])) htemp
    rw [hlost] at hq
    cases hq

end SistemasOperativos.UserLib
