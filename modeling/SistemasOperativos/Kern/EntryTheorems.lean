/-
SistemasOperativos.Kern.EntryTheorems — what a user address translates
to.

`target` says which page is behind an address; here it is the whole page
table entry, permissions included. A walk that creates a page table
changes no entry, `page_insert` changes one, and so `env_page_alloc` and
`env_page_map` change what one environment sees at one address.
-/
import SistemasOperativos.Kern.MappingTheorems

namespace SistemasOperativos.Kern

open RefCount

/-! ## Address spaces -/

/-- The page table entry that translates `va` in the address space of `e`;
0 when there is no page table for it. -/
def userEntry (k : Kernel) (e : EnvIdx) (va : Word) : Word :=
  match (k.envs e).envPgdir.bind (fun d => entryPage (k.mem.frames d (pdx va))) with
  | none => 0
  | some t => k.mem.frames t (ptx va)

/-- The page that `e` has mapped at `va`. -/
def mappedPage (k : Kernel) (e : EnvIdx) (va : Word) : Option Nat := entryPage (userEntry k e va)

/-- The page at `srcva` may be mapped elsewhere with these permissions. -/
def MayPass (k : Kernel) (cur : EnvIdx) (srcva perm : Word) : Prop :=
  perm &&& pteW ≠ 0 → userEntry k cur srcva &&& pteW ≠ 0

/-! ## Entries -/

variable {roots : EnvIdx → Option Nat} {m m' m₁ : Pmap} {e e' : EnvIdx} {i i' : Fin userPdes}
  {j j' : Fin nptentries} {d t pp : Nat} {va perm : Word} {M : Nat → Prop} {held : Option Nat}

/-- The entry of a slot of the address space of `e`. -/
def entryAt (roots : EnvIdx → Option Nat) (m : Pmap) (e : EnvIdx) (i : Fin userPdes)
    (j : Fin nptentries) : Word :=
  match target roots m (.pde e i) with
  | none => 0
  | some t => m.frames t j

theorem entryAt_none (ht : target roots m (.pde e i) = none) : entryAt roots m e i j = 0 := by
  rw [entryAt, ht]

theorem entryAt_some (ht : target roots m (.pde e i) = some t) :
    entryAt roots m e i j = m.frames t j := by
  rw [entryAt, ht]

theorem target_pte_entryAt : target roots m (.pte e i j) = entryPage (entryAt roots m e i j) := by
  cases ht : target roots m (.pde e i) with
  | none =>
      rw [target_pte_none ht, entryAt_none ht]
      rfl
  | some t => rw [target_pte_some ht, entryAt_some ht]

theorem target_congr_frames (h : m'.frames = m.frames) : target roots m' = target roots m :=
  target_congr (fun _ p _ _ x _ => by rw [h])

theorem entryAt_congr (h : m'.frames = m.frames) : entryAt roots m' = entryAt roots m := by
  funext e i j
  rw [entryAt, entryAt, target_congr_frames h, h]

/-- Entries are in pages that are not free. -/
theorem MemInv.entryAt_of_kept (h : MemInv M roots held m)
    (hkeep : ∀ q, q ∉ m.pageFreeList → m'.frames q = m.frames q) :
    entryAt roots m' = entryAt roots m := by
  have htarget : target roots m' = target roots m :=
    target_congr (fun s q _ hs x _ => by rw [hkeep q (h.notMem_free hs)])
  funext e i j
  cases ht : target roots m (.pde e i) with
  | none => rw [entryAt_none ht, entryAt_none (by rw [htarget, ht])]
  | some t => rw [entryAt_some ht, entryAt_some (by rw [htarget, ht]), hkeep t (h.notMem_free ht)]

/-- A store into a page table changes one entry. -/
theorem MemInv.entryAt_setWord (h : MemInv M roots held m)
    (ht : target roots m (.pde e i) = some t) (w : Word) :
    entryAt roots (m.setWord ⟨t, j⟩ w) e' i' j' =
      if Slot.pte e' i' j' = .pte e i j then w else entryAt roots m e' i' j' := by
  have hpde : target roots (m.setWord ⟨t, j⟩ w) (.pde e' i') = target roots m (.pde e' i') := by
    rw [target_setWord_pte h ht, Function.update_of_ne (by simp)]
  cases ht' : target roots m (.pde e' i') with
  | none =>
      rw [entryAt_none (hpde.trans ht'), entryAt_none ht', if_neg]
      intro heq
      cases heq
      rw [ht] at ht'
      cases ht'
  | some t' =>
      rw [entryAt_some (hpde.trans ht'), entryAt_some ht', setWord_frames]
      by_cases htt : t' = t
      · subst htt
        cases h.table_eq (s := .pde e i) trivial ht ht'
        simp [Fin.ext_iff]
      · rw [if_neg (fun hc => htt hc.1), if_neg]
        intro heq
        cases heq
        rw [ht] at ht'
        exact htt (Option.some.inj ht').symm

/-! ## `pgdir_walk`, `page_insert` -/

/-- A walk that creates a page table leaves every entry as it was. -/
theorem MemInv.entryAt_pgdirWalk (h : MemInv M roots none m) (hd : roots e = some d)
    (hi : pdx va = i) {pte : PtePtr} (hwalk : pgdirWalk m d va = .ok (some pte, m₁)) :
    MemInv M roots none m₁ ∧ target roots m₁ (.pde e i) = some pte.page ∧ pte.idx = ptx va ∧
      ∀ e' i' j', entryAt roots m₁ e' i' j' = entryAt roots m e' i' j' := by
  cases ht : target roots m (.pde e i) with
  | some t =>
      rw [pgdirWalk, pgdirCreate_some hd hi ht, h.pgdirFind_some hd hi ht] at hwalk
      cases hwalk
      exact ⟨h, ht, rfl, fun _ _ _ => rfl⟩
  | none =>
      cases hfree : m.pageFreeList with
      | nil =>
          rw [pgdirWalk, h.pgdirCreate_full hd hi ht hfree, h.pgdirFind_none hd hi ht] at hwalk
          cases hwalk
      | cons t rest =>
          obtain ⟨h₁, hpool⟩ := h.pgdirCreate_fresh hd hi ht hfree
          have hmem : t ∈ m.pageFreeList := by
            rw [hfree]
            exact List.mem_cons_self
          have htarget : target roots (pgdirCreate m d va) =
              Function.update (target roots m) (.pde e i) (some t) := congrArg Pool.target hpool
          have hnew : target roots (pgdirCreate m d va) (.pde e i) = some t := by
            rw [htarget, Function.update_self]
          have hframes : ∀ q x, q ≠ d → (pgdirCreate m d va).frames q x =
              (m.taken t rest).frames q x := by
            intro q x hq
            rw [pgdirCreate, hi, if_pos (h.pde_eq_zero hd ht), pageAlloc_cons hfree, setWord_frames,
              if_neg (fun hc => hq hc.1)]
            rfl
          rw [pgdirWalk, h₁.pgdirFind_some hd hi hnew] at hwalk
          cases hwalk
          refine ⟨h₁, hnew, rfl, ?_⟩
          intro e' i' j'
          by_cases heq : Slot.pde e' i' = .pde e i
          · cases heq
            have htd : t ≠ d := fun htd => h.unused_of_free (s := .pgdir e) hmem (htd ▸ hd)
            rw [entryAt_some hnew, entryAt_none ht, hframes t j' htd]
            simp [Pmap.taken]
          · have hpde : target roots (pgdirCreate m d va) (.pde e' i') =
                target roots m (.pde e' i') := by
              rw [htarget, Function.update_of_ne heq]
            cases ht' : target roots m (.pde e' i') with
            | none => rw [entryAt_none (hpde.trans ht'), entryAt_none ht']
            | some t' =>
                have hne : t' ≠ d := by
                  rintro rfl
                  cases h.table_eq (s := .pgdir e) trivial hd ht'
                have hold : t' ≠ t := by
                  rintro rfl
                  exact h.unused_of_free hmem ht'
                rw [entryAt_some (hpde.trans ht'), entryAt_some ht', hframes t' j' hne]
                simp [Pmap.taken, hold]

theorem pageDecref_frames {p : Nat} (h : pageDecref m p = .ok m') : m'.frames = m.frames := by
  unfold pageDecref at h
  dsimp only at h
  split at h
  · unfold pageFree at h
    split at h
    · cases h
    · split at h
      · cases h
      · cases h
        rfl
  · cases h
    rfl

/-- `page_remove` writes at most the entry that the walk finds. -/
theorem pageRemove_frames {pte : PtePtr} (hfind : pgdirFind m d va = .ok (some pte))
    (h : pageRemove m d va = .ok m') (w : Word) :
    (m'.setWord pte w).frames = (m.setWord pte w).frames := by
  unfold pageRemove at h
  rw [pageLookup, hfind, bind_ok] at h
  obtain ⟨found, hfound, h⟩ := h
  rw [bind_ok] at hfound
  obtain ⟨_, hpte, hfound⟩ := hfound
  cases hpte
  dsimp only at hfound
  split at hfound
  · cases hfound
    cases h
    rfl
  · rw [bind_ok] at hfound
    obtain ⟨page, -, hfound⟩ := hfound
    cases hfound
    dsimp only at h
    rw [bind_ok] at h
    obtain ⟨m₁, hdec, h⟩ := h
    cases h
    funext q x
    rw [setWord_frames, setWord_frames, setWord_frames, pageDecref_frames hdec]
    split <;> rfl

/-- `page_insert` writes one entry and no other. -/
theorem MemInv.entryAt_pageInsert (h : MemInv M roots none m) (hd : roots e = some d)
    (hi : pdx va = i) (hj : ptx va = j) {r : Int}
    (hins : pageInsert m d pp va perm = .ok (r, m')) (hr : r = 0) :
    entryAt roots m' e' i' j' =
      if Slot.pte e' i' j' = .pte e i j then page2pa pp ||| perm ||| pteP
      else entryAt roots m e' i' j' := by
  unfold pageInsert at hins
  rw [bind_ok] at hins
  obtain ⟨⟨found, m₁⟩, hwalk, hins⟩ := hins
  cases found with
  | none =>
      cases hins
      exact absurd hr (by decide)
  | some pte =>
      dsimp only at hins
      rw [bind_ok] at hins
      obtain ⟨m₂, hremove, hins⟩ := hins
      cases hins
      obtain ⟨h₁, ht, hidx, hkeep⟩ := h.entryAt_pgdirWalk hd hi hwalk
      have hpte : pte = ⟨pte.page, j⟩ := by
        rw [← hj, ← hidx]
      have hfind : pgdirFind (m₁.incRef pp) d va = .ok (some pte) := by
        rw [hpte, ← hj]
        exact h₁.pgdirFind_some hd hi ht
      have hframes := pageRemove_frames hfind hremove (page2pa pp ||| perm ||| pteP)
      rw [entryAt_congr (hframes.trans (show _ = (m₁.setWord pte _).frames from rfl)), hpte,
        h₁.entryAt_setWord ht, hkeep]

/-- `page_insert` over a page that is mapped there succeeds, whatever the
count of the new one is. -/
theorem MemInv.pageInsert_over {q : Nat} (h : MemInv M roots none m) (hd : roots e = some d)
    (hi : pdx va = i) (hj : ptx va = j) (hq : target roots m (.pte e i j) = some q)
    (hne : q ≠ pp) (perm : Word) : ∃ m', pageInsert m d pp va perm = .ok (0, m') := by
  obtain ⟨t, ht⟩ := table_of_mapped hq
  have hwalk : pgdirWalk m d va = .ok (some ⟨t, ptx va⟩, m) := by
    rw [pgdirWalk, pgdirCreate_some hd hi ht, h.pgdirFind_some hd hi ht]
    rfl
  have hlookup : pageLookup (m.incRef pp) d va = .ok (some (q, ⟨t, j⟩)) :=
    h.pageLookup_some hd hi hj ht hq
  have href : (m.incRef pp).ppRef q = m.ppRef q := by
    simp [Pmap.incRef, Pmap.setRef, hne]
  have hpos : 0 < m.ppRef q := h.sound.ref_pos (s := Slot.pte e i j) hq
  have hdec := Kern.pageDecref_eq (m := m.incRef pp) (by rw [href]; exact hpos)
    (by rw [href]; exact h.bound q (h.managed hq)) (h.notMem_free hq)
  refine ⟨((((m.incRef pp).dropRef q).setWord ⟨t, j⟩ 0).setWord ⟨t, ptx va⟩
    (page2pa pp ||| perm ||| pteP)), ?_⟩
  rw [pageInsert, hwalk, bind_ok]
  refine ⟨_, rfl, ?_⟩
  dsimp only
  rw [pageRemove, hlookup, bind_ok]
  refine ⟨((m.incRef pp).dropRef q).setWord ⟨t, j⟩ 0, ?_, rfl⟩
  rw [bind_ok]
  refine ⟨_, rfl, ?_⟩
  dsimp only
  rw [hdec]
  rfl

/-! ## Entries of an address space -/

variable {k k' : Kernel} {cur dst : EnvIdx} {srcva dstva : Word} {p : Nat}

theorem pdx_lt_of_lt (h : va < utop) : pdx va < userPdes := by
  have hlt : va.toNat < 4005560320 := h
  show va.toNat / 4194304 < 955
  omega

/-- The entry of a user address of a live environment. -/
theorem userEntry_eq (hroot : liveRoot k e = (k.envs e).envPgdir) (hva : va < utop) :
    userEntry k e va =
      entryAt (liveRoot k) k.mem e ⟨pdx va, pdx_lt_of_lt hva⟩ ⟨ptx va, ptx_lt va⟩ := by
  rw [userEntry, entryAt, target, hroot]

theorem utop_of_userPage (hva : userPage va = true) : va < utop := by
  simp only [userPage, Bool.and_eq_true, decide_eq_true_eq] at hva
  exact hva.1

theorem mappedPage_eq (hroot : liveRoot k e = (k.envs e).envPgdir) (hva : userPage va = true) :
    mappedPage k e va = target (liveRoot k) k.mem (slotOf e va hva) := by
  rw [mappedPage, userEntry_eq hroot (utop_of_userPage hva), slotOf, target_pte_entryAt]

/-- Two user pages have one slot only when they are one. -/
theorem slotOf_inj (hva : userPage srcva = true) (hva' : userPage dstva = true)
    (h : slotOf e srcva hva = slotOf e' dstva hva') : e = e' ∧ srcva = dstva := by
  simp only [slotOf, Slot.pte.injEq, Fin.mk.injEq, pdx, ptx] at h
  simp only [userPage, Bool.and_eq_true, beq_iff_eq] at hva hva'
  refine ⟨h.1, BitVec.eq_of_toNat_eq ?_⟩
  have hmod : srcva.toNat % 4096 = 0 := hva.2
  have hmod' : dstva.toNat % 4096 = 0 := hva'.2
  omega

theorem userEntry_congr (hmem : k'.mem = k.mem)
    (hpgdir : (k'.envs e).envPgdir = (k.envs e).envPgdir) :
    userEntry k' e va = userEntry k e va := by
  rw [userEntry, userEntry, hmem, hpgdir]

/-! ## `env_page_alloc`, `env_page_map` -/

theorem checkPerm_none_eq (perm : Word) :
    checkPerm perm none = 0 ∨ checkPerm perm none = -eInval := by
  unfold checkPerm
  split
  · exact Or.inr rfl
  · split
    · exact Or.inr rfl
    · exact Or.inl rfl

/-- `env_page_alloc` fails and changes no page in use, or it writes the
entry of a page that was free. -/
theorem KernelInv.envPageAlloc_entries (h : KernelInv M k) (hd : (k.envs e).envPgdir = some d)
    (hroot : liveRoot k e = some d) (hva : userPage va = true) (perm : Word) :
    (∃ r mem, envPageAlloc k e va perm = .ok (r, { k with mem := mem }) ∧ r < 0 ∧
      (∀ q, q ∉ k.mem.pageFreeList → mem.frames q = k.mem.frames q) ∧
      (checkPerm perm none ≠ 0 ∨ k.mem.pageFreeList = [] ∨ mappedPage k e va = none)) ∨
    ∃ pp mem, envPageAlloc k e va perm = .ok (0, { k with mem := mem }) ∧
      checkPerm perm none = 0 ∧ pp ∈ k.mem.pageFreeList ∧ MemInv M (liveRoot k) none mem ∧
      ∀ e' va', liveRoot k e' = (k.envs e').envPgdir → userPage va' = true →
        userEntry { k with mem := mem } e' va' =
          if e' = e ∧ va' = va then page2pa pp ||| perm ||| pteP else userEntry k e' va' := by
  have hsame : ∀ q, q ∉ k.mem.pageFreeList → k.mem.frames q = k.mem.frames q := fun _ _ => rfl
  rcases h.envPageAlloc_cases hd hroot hva perm with ⟨hperm, heq⟩ | ⟨hempty, heq⟩ |
    ⟨pp, rest, hperm, hfree, h₁, htarget, ⟨heq, hnone, -⟩ | ⟨mem, heq, hins, hinv, -⟩⟩
  · exact Or.inl ⟨_, k.mem, heq, hperm, hsame, Or.inl (ne_of_lt hperm)⟩
  · exact Or.inl ⟨_, k.mem, heq, by decide, hsame, Or.inr (Or.inl hempty)⟩
  all_goals
    have hmem : pp ∈ k.mem.pageFreeList := by
      rw [hfree]
      exact List.mem_cons_self
    have htaken : ∀ q, q ∉ k.mem.pageFreeList →
        (k.mem.taken pp rest).frames q = k.mem.frames q := by
      intro q hq
      have hne : q ≠ pp := fun heq => hq (heq ▸ hmem)
      simp [Pmap.taken, hne]
  · refine Or.inl ⟨_, _, heq, by decide, htaken, Or.inr (Or.inr ?_)⟩
    rw [mappedPage_eq (hroot.trans hd.symm) hva]
    exact target_pte_none hnone
  · refine Or.inr ⟨pp, mem, heq, ?_, hmem, hinv, ?_⟩
    · rcases checkPerm_none_eq perm with hzero | hneg
      · exact hzero
      · exact absurd (by rw [hneg]; decide) hperm
    · intro e' va' hroot' hva'
      have hlive : liveRoot { k with mem := mem } e' = (k.envs e').envPgdir := hroot'
      rw [userEntry_eq hlive (utop_of_userPage hva'), userEntry_eq hroot' (utop_of_userPage hva')]
      show entryAt (liveRoot k) mem e' _ _ = _
      rw [h₁.entryAt_pageInsert (i := ⟨pdx va, pdx_lt hva⟩) (j := ⟨ptx va, ptx_lt va⟩) hroot rfl
        rfl hins rfl, h.mem.entryAt_of_kept htaken]
      by_cases hsame : e' = e ∧ va' = va
      · obtain ⟨rfl, rfl⟩ := hsame
        rw [if_pos rfl, if_pos ⟨rfl, rfl⟩]
      · rw [if_neg hsame]
        exact if_neg (fun heq => hsame (slotOf_inj hva' hva heq))

theorem and_pteW (w : Word) : w &&& pteW = 0 ∨ w &&& pteW = pteW := by
  have hbit : ∀ i : Nat, i < 32 → pteW.getLsbD i = decide (i = 1) := by decide
  have hand : w &&& pteW = if w.getLsbD 1 then pteW else 0 := by
    ext i hi
    rw [BitVec.getElem_and, ← BitVec.getLsbD_eq_getElem (x := pteW), hbit i hi,
      ← BitVec.getLsbD_eq_getElem (x := w)]
    by_cases hone : i = 1
    · subst hone
      cases w.getLsbD 1 <;> simp
    · rw [decide_eq_false hone, Bool.and_false]
      split
      · rw [← BitVec.getLsbD_eq_getElem, hbit i hi, decide_eq_false hone]
      · simp
  rw [hand]
  split
  · exact Or.inr rfl
  · exact Or.inl rfl

/-- The test of `env_page_map`, for a sender that may pass the page on. -/
theorem MayPass.test (h : MayPass k cur srcva perm) :
    ¬ (perm &&& pteW) &&& ~~~(pteW &&& userEntry k cur srcva) ≠ 0 := by
  rw [not_not]
  by_cases hw : perm &&& pteW = 0
  · rw [hw]
    exact BitVec.zero_and
  · rcases and_pteW (userEntry k cur srcva) with hzero | hone
    · exact absurd hzero (h hw)
    · rw [BitVec.and_comm pteW, hone]
      exact and_and_not_self _ _

/-- The entry that `page_lookup` finds is the one of the address space. -/
theorem KernelInv.pageLookup_mapped (h : KernelInv M k) (hd : (k.envs e).envPgdir = some d)
    (hroot : liveRoot k e = some d) (hva : userPage va = true) (hp : mappedPage k e va = some p) :
    ∃ pte, pageLookup k.mem d va = .ok (some (p, pte)) ∧ k.mem.word pte = userEntry k e va := by
  rw [mappedPage_eq (hroot.trans hd.symm) hva, slotOf] at hp
  obtain ⟨t, ht⟩ := table_of_mapped hp
  refine ⟨_, h.mem.pageLookup_some hroot rfl rfl ht hp, ?_⟩
  rw [userEntry_eq (hroot.trans hd.symm) (utop_of_userPage hva), entryAt_some ht]
  rfl

/-- `env_page_map` over a page that is mapped there returns 0, and the
entry is the new one; the counts can only stop it when the two pages are
one. -/
theorem KernelInv.envPageMap_over (h : KernelInv M k) {ds dd q : Nat}
    (hds : (k.envs cur).envPgdir = some ds) (hsrc : liveRoot k cur = some ds)
    (hdd : (k.envs dst).envPgdir = some dd) (hdst : liveRoot k dst = some dd)
    (hs : userPage srcva = true) (hdv : userPage dstva = true)
    (hp : mappedPage k cur srcva = some p) (hq : mappedPage k dst dstva = some q)
    (hpass : MayPass k cur srcva perm) :
    (q ≠ p → ∃ mem, envPageMap k cur srcva dst dstva perm = .ok (0, { k with mem := mem })) ∧
    ∀ r k', envPageMap k cur srcva dst dstva perm = .ok (r, k') →
      r = 0 ∧ ∃ mem, k' = { k with mem := mem } ∧
        userEntry { k with mem := mem } dst dstva = page2pa p ||| perm ||| pteP := by
  obtain ⟨pte, hlookup, hword⟩ := h.pageLookup_mapped hds hsrc hs hp
  have htest := hpass.test
  rw [← hword] at htest
  have hslot := hq
  rw [mappedPage_eq (hdst.trans hdd.symm) hdv, slotOf] at hslot
  refine ⟨?_, ?_⟩
  · intro hne
    obtain ⟨mem, hins⟩ := h.mem.pageInsert_over hdst rfl rfl hslot hne perm
    exact ⟨mem, envPageMap_eq hds hdd hlookup htest hins⟩
  · intro r k' heq
    rw [envPageMap, pgdirOf_eq hds, bind_ok] at heq
    obtain ⟨_, hds', heq⟩ := heq
    cases hds'
    rw [hlookup, bind_ok] at heq
    obtain ⟨_, hfound, heq⟩ := heq
    cases hfound
    dsimp only at heq
    rw [if_neg htest, pgdirOf_eq hdd, bind_ok] at heq
    obtain ⟨_, hdd', heq⟩ := heq
    cases hdd'
    rw [bind_ok] at heq
    obtain ⟨⟨r', mem⟩, hins, heq⟩ := heq
    cases heq
    have hzero : r' = 0 := by
      obtain ⟨t, ht⟩ := table_of_mapped hslot
      rw [pageInsert, pgdirWalk, pgdirCreate_some hdst rfl ht, h.mem.pgdirFind_some hdst rfl ht,
        bind_ok] at hins
      obtain ⟨_, hwalk, hins⟩ := hins
      cases hwalk
      dsimp only at hins
      rw [bind_ok] at hins
      obtain ⟨_, -, hins⟩ := hins
      cases hins
      rfl
    refine ⟨hzero, mem, rfl, ?_⟩
    have hroot' : liveRoot { k with mem := mem } dst = (k.envs dst).envPgdir := hdst.trans hdd.symm
    rw [userEntry_eq hroot' (utop_of_userPage hdv)]
    show entryAt (liveRoot k) mem dst _ _ = _
    rw [h.mem.entryAt_pageInsert (i := ⟨pdx dstva, pdx_lt hdv⟩) (j := ⟨ptx dstva, ptx_lt dstva⟩)
      hdst rfl rfl hins hzero, if_pos rfl]

end SistemasOperativos.Kern
