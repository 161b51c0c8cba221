/-
SistemasOperativos.Kern.LoaderTheorems — what a program finds in its
memory when `env_create` returns.

The address space is looked at twice: as the entries that `Loading` keeps
in order, where no page has two owners, and as the bytes that `userRead`
finds through them. A page of `region_alloc` changes what is mapped but no
byte elsewhere (`allocPage_spec`), a store changes one byte
(`storeByte_spec`), and the rest follows by induction over the loops: the
pages of a region, the bytes of `memset` and `memcpy`, the headers of the
file. `Kept` goes along with each step: the pages of the kernel and of the
other environments are as they were.

Segments may share a page. The loader maps a new page over the old one, so
such a page belongs to the last segment that touches it (`ownerOf`).
-/
import SistemasOperativos.Kern.PageMapTheorems
import SistemasOperativos.Kern.UserMemTheorems
import SistemasOperativos.Kern.Loader

namespace SistemasOperativos.Kern

open RefCount

/-! ## Bytes and words -/

/-- The mask of a byte. -/
theorem getLsbD_byteMask (x : Nat) : (0xFF : Word).getLsbD x = decide (x < 8) := by
  by_cases hx : x < 32
  · have hall : ∀ y : Fin 32, (0xFF : Word).getLsbD y = decide (y.val < 8) := by decide
    exact hall ⟨x, hx⟩
  · rw [BitVec.getLsbD_of_ge _ _ (by omega), eq_comm, decide_eq_false_iff_not]
    omega

theorem getLsbD_wordByte (w : Word) (b : Nat) {i : Nat} (hi : i < 8) :
    (wordByte w b).getLsbD i = w.getLsbD (8 * b + i) := by
  rw [wordByte, BitVec.getLsbD_extractLsb', decide_eq_true hi, Bool.true_and]

theorem wordByte_wordSetByte {w : Word} {v : BitVec 8} {b b' : Nat} (hb' : b' < 4) :
    wordByte (wordSetByte w b v) b' = if b' = b then v else wordByte w b' := by
  apply BitVec.eq_of_getLsbD_eq
  intro i hi
  have hlt : 8 * b' + i < 32 := by omega
  rw [getLsbD_wordByte _ _ hi]
  simp only [wordSetByte, BitVec.getLsbD_or, BitVec.getLsbD_and, BitVec.getLsbD_not,
    BitVec.getLsbD_shiftLeft, getLsbD_byteMask, BitVec.truncate_eq_setWidth,
    BitVec.getLsbD_setWidth]
  split
  · rename_i heq
    subst heq
    have hnot : ¬ 8 * b' + i < 8 * b' := by omega
    have hsub : 8 * b' + i - 8 * b' = i := by omega
    simp [hnot, hlt, hsub, hi]
    omega
  · rename_i hne
    rw [getLsbD_wordByte _ _ hi]
    by_cases hlow : 8 * b' + i < 8 * b
    · simp [hlow, hlt]
    · have hmask : ¬ 8 * b' + i - 8 * b < 8 := by omega
      have hv : v.getLsbD (8 * b' + i - 8 * b) = false := BitVec.getLsbD_of_ge _ _ (by omega)
      simp [hlow, hlt, hmask, hv]

/-- A store of one byte. -/
theorem byte_setByte (m : Pmap) (page off : Nat) (v : BitVec 8) (page' off' : Nat) :
    (m.setByte page off v).byte page' off' =
      if page' = page ∧ off' = off then v else m.byte page' off' := by
  rw [Pmap.byte, Pmap.byte, Pmap.setByte, setWord_frames]
  by_cases hw : page' = page ∧ off' / 4 = off / 4
  · rw [if_pos hw, wordByte_wordSetByte (Nat.mod_lt _ (by decide)), hw.1, ← hw.2]
    by_cases hoff : off' = off
    · rw [if_pos (by rw [hoff]), if_pos ⟨rfl, hoff⟩]
    · rw [if_neg (by omega), if_neg (fun hc => hoff hc.2)]
  · rw [if_neg hw, if_neg]
    rintro ⟨rfl, rfl⟩
    exact hw ⟨rfl, rfl⟩

/-! ## Pages that an insertion leaves alone -/

variable {M : Nat → Prop} {roots : EnvIdx → Option Nat} {held : Option Nat} {m m₁ m' : Pmap}
  {e e' : EnvIdx} {i i' : Fin userPdes} {j j' : Fin nptentries} {d t pp q : Nat} {va perm : Word}

/-- The environment whose address space the slot is in. -/
def Slot.env : Slot → EnvIdx
  | .pgdir e => e
  | .pde e _ => e
  | .pte e _ _ => e

/-- A page that is not free and holds no table of `e`. -/
structure Apart (roots : EnvIdx → Option Nat) (m : Pmap) (e : EnvIdx) (q : Nat) : Prop where
  taken : q ∉ m.pageFreeList
  leaf : ∀ s : Slot, s.Table → s.env = e → target roots m s ≠ some q

/-- Data pages and the pages of other environments. -/
theorem MemInv.apart (h : MemInv M roots held m) {s : Slot} (hs : s.Table → s.env ≠ e)
    (hq : target roots m s = some q) : Apart roots m e q := by
  refine ⟨h.notMem_free hq, fun s' hs' he hq' => ?_⟩
  rw [h.table_eq hs' hq' hq] at hs
  exact hs hs' he

/-- Pages that are not managed, which are the kernel's own. -/
theorem MemInv.apart_kernel (h : MemInv M roots held m) (hM : ¬ M q) : Apart roots m e q :=
  ⟨fun hq => hM (h.sound.free q hq).1, fun _ _ _ hq => hM (h.managed hq)⟩

/-- Stores into a page that is no table are stores into data. -/
theorem MemInv.setLeaf (h : MemInv M roots held m) (hq : Mappable M roots m q) (x : Nat)
    (w : Word) :
    MemInv M roots held (m.setWord ⟨q, x⟩ w) ∧
      target roots (m.setWord ⟨q, x⟩ w) = target roots m ∧
      entryAt roots (m.setWord ⟨q, x⟩ w) = entryAt roots m := by
  have hkeep : ∀ p, p ≠ q → ∀ y, (m.setWord ⟨q, x⟩ w).frames p y = m.frames p y := by
    intro p hp y
    rw [setWord_frames, if_neg (fun hc => hp hc.1)]
  have htable : ∀ (s : Slot) p, s.Table → target roots m s = some p → p ≠ q := by
    rintro s p hs hp rfl
    exact hq.leaf s hs hp
  have htarget : target roots (m.setWord ⟨q, x⟩ w) = target roots m :=
    target_congr (fun s p hs hp y _ => hkeep p (htable s p hs hp) y)
  refine ⟨⟨?_, h.npages, h.small, h.bound, ?_, ?_, ?_⟩, htarget, ?_⟩
  · rw [pool, htarget]
    exact h.sound
  · intro y hy
    rw [← h.kernel y hy]
    exact hkeep _ (h.small q hq.managed).2.symm y
  · intro e d i hd
    rw [hkeep d (htable (.pgdir e) d trivial hd)]
    exact h.pde e d i hd
  · intro e i t j ht
    rw [htarget] at ht
    rw [hkeep t (htable (.pde e i) t trivial ht)]
    exact h.pte e i t j ht
  · funext e i j
    cases ht : target roots m (.pde e i) with
    | none => rw [entryAt_none ht, entryAt_none (by rw [htarget, ht])]
    | some t =>
        rw [entryAt_some ht, entryAt_some (by rw [htarget, ht]),
          hkeep t (htable (.pde e i) t trivial ht)]

/-- A walk stores into the directory and clears the page of a new table. -/
theorem MemInv.pgdirWalk_frames (h : MemInv M roots none m) (hd : roots e = some d)
    (hi : pdx va = i) {pte : PtePtr} (hwalk : pgdirWalk m d va = .ok (some pte, m₁)) :
    (∀ q, Apart roots m e q → q ≠ pte.page ∧ m₁.frames q = m.frames q) ∧
      ∀ x, m₁.frames d x = m.frames d x ∨
        ∃ t, m₁.frames d x = page2pa t ||| pteP ||| pteW ||| pteU := by
  obtain ⟨-, ht₁, -, -⟩ := h.entryAt_pgdirWalk hd hi hwalk
  have hm₁ : m₁ = pgdirCreate m d va := by
    rw [pgdirWalk, bind_ok] at hwalk
    obtain ⟨_, -, hwalk⟩ := hwalk
    cases hwalk
    rfl
  subst hm₁
  by_cases hpde : m.frames d (pdx va) = 0
  · cases hfree : m.pageFreeList with
    | nil =>
        have hsame : pgdirCreate m d va = m := by
          rw [pgdirCreate, if_pos hpde, pageAlloc, hfree]
        rw [hsame, target_pde hd, ← hi, entryPage, hpde] at ht₁
        cases ht₁
    | cons t rest =>
        have hframes := pgdirCreate_frames hpde hfree
        have hmem : t ∈ m.pageFreeList := by
          rw [hfree]
          exact List.mem_cons_self
        have hdt : d ≠ t := fun heq => h.unused_of_free (s := .pgdir e) hmem (heq ▸ hd)
        have hpage : pte.page = t := by
          have hlt := h.page_lt (h.sound.free t hmem).1
          rw [target_pde hd, hframes, if_pos ⟨rfl, hi.symm⟩, entryPage_table hlt] at ht₁
          exact (Option.some.inj ht₁).symm
        refine ⟨?_, ?_⟩
        · intro q hq
          have hqd : q ≠ d := fun heq => hq.leaf (.pgdir e) trivial rfl (heq ▸ hd)
          have hqt : q ≠ t := fun heq => hq.taken (heq ▸ hmem)
          refine ⟨hpage ▸ hqt, ?_⟩
          funext x
          rw [hframes, if_neg (fun hc => hqd hc.1), if_neg hqt]
        · intro x
          rw [hframes]
          by_cases hx : x = pdx va
          · rw [if_pos ⟨rfl, hx⟩]
            exact Or.inr ⟨t, rfl⟩
          · rw [if_neg (fun hc => hx hc.2), if_neg hdt]
            exact Or.inl rfl
  · have hsame : pgdirCreate m d va = m := by
      rw [pgdirCreate, if_neg hpde]
    rw [hsame] at ht₁ ⊢
    exact ⟨fun q hq => ⟨fun heq => hq.leaf (.pde e i) trivial rfl (heq ▸ ht₁), rfl⟩,
      fun x => Or.inl rfl⟩

/-- `page_insert` stores into the directory and into one of its tables:
other pages keep what they hold, and so does the rest of the directory. -/
theorem MemInv.pageInsert_frames (h : MemInv M roots none m) (hd : roots e = some d)
    (hi : pdx va = i) {r : Int} (hins : pageInsert m d pp va perm = .ok (r, m')) (hr : r = 0) :
    (∀ q, Apart roots m e q → m'.frames q = m.frames q) ∧
      ∀ x, m'.frames d x = m.frames d x ∨
        ∃ t, m'.frames d x = page2pa t ||| pteP ||| pteW ||| pteU := by
  unfold pageInsert at hins
  rw [bind_ok] at hins
  obtain ⟨⟨found, m₁⟩, hwalk, hins⟩ := hins
  cases found with
  | none =>
      cases hins
      exact absurd hr (by decide)
  | some pte =>
      dsimp only at hins
      rw [bind_ok] at hins
      obtain ⟨m₂, hremove, hins⟩ := hins
      cases hins
      obtain ⟨h₁, ht, hidx, -⟩ := h.entryAt_pgdirWalk hd hi hwalk
      obtain ⟨hleaf, hdirs⟩ := h.pgdirWalk_frames hd hi hwalk
      have hfind : pgdirFind (m₁.incRef pp) d va = .ok (some pte) := by
        have hpte : pte = ⟨pte.page, ptx va⟩ := by rw [← hidx]
        rw [hpte]
        exact h₁.pgdirFind_some hd hi ht
      have hframes := pageRemove_frames hfind hremove (page2pa pp ||| perm ||| pteP)
      have hwhere : ∀ q, q ≠ pte.page →
          (m₂.setWord pte (page2pa pp ||| perm ||| pteP)).frames q = m₁.frames q := by
        intro q hq
        funext x
        rw [hframes, setWord_frames, if_neg (fun hc => hq hc.1)]
        rfl
      have hdir : d ≠ pte.page := by
        intro heq
        rw [← heq] at ht
        cases h₁.table_eq (s := .pgdir e) trivial hd ht
      refine ⟨?_, ?_⟩
      · intro q hq
        rw [hwhere q (hleaf q hq).1, (hleaf q hq).2]
      · intro x
        rw [hwhere d hdir]
        exact hdirs x

/-! ## What a user program reads -/

/-- The byte that a user program reads at `va`: both entries must be
present and open to it. -/
def userRead (m : Pmap) (pgdir : Nat) (va : Word) : Option (BitVec 8) :=
  let pde := m.frames pgdir (pdx va)
  let pte := m.frames (pgnum pde) (ptx va)
  if pde &&& (pteP ||| pteU) = pteP ||| pteU ∧ pte &&& (pteP ||| pteU) = pteP ||| pteU then
    some (m.byte (pgnum pte) (pgoff va))
  else none

/-- Present, writable and open to the user. -/
abbrev pteData : Word := pteP ||| pteW ||| pteU

/-- The address space of `e` while its program is loaded: what it maps is
its own, and nothing in it is read-only. -/
structure Loading (M : Nat → Prop) (roots : EnvIdx → Option Nat) (e : EnvIdx) (d : Nat) (m : Pmap) :
    Prop where
  mem : MemInv M roots none m
  root : roots e = some d
  pde : ∀ x < userPdes, m.frames d x = 0 ∨ m.frames d x &&& pteData = pteData
  pte : ∀ i j, entryAt roots m e i j = 0 ∨ entryAt roots m e i j &&& pteData = pteData
  own : ∀ i j p, target roots m (.pte e i j) = some p →
    ∀ s, target roots m s = some p → s = .pte e i j

/-- What the loader leaves alone: the pages of the kernel and of the other
environments. -/
def Kept (M : Nat → Prop) (roots : EnvIdx → Option Nat) (e : EnvIdx) (m m' : Pmap) : Prop :=
  ∀ q, (¬ M q ∨ ∃ s : Slot, s.env ≠ e ∧ target roots m s = some q) → m'.frames q = m.frames q

theorem Kept.refl : Kept M roots e m m := fun _ _ => rfl

/-- The other environments keep their page tables. -/
theorem Kept.target_eq (h : Kept M roots e m m') {s : Slot} (hs : s.env ≠ e) :
    target roots m' s = target roots m s := by
  have hpde : ∀ e' i', e' ≠ e → target roots m' (.pde e' i') = target roots m (.pde e' i') := by
    intro e' i' he
    cases hd : roots e' with
    | none => simp [target, hd]
    | some d' => rw [target_pde hd, target_pde hd, h d' (Or.inr ⟨.pgdir e', he, hd⟩)]
  cases s with
  | pgdir e' => rfl
  | pde e' i' => exact hpde e' i' hs
  | pte e' i' j' =>
      cases ht : target roots m (.pde e' i') with
      | none => rw [target_pte_none ht, target_pte_none (by rw [hpde e' i' hs, ht])]
      | some t =>
          rw [target_pte_some ht, target_pte_some (by rw [hpde e' i' hs, ht]),
            h t (Or.inr ⟨.pde e' i', hs, ht⟩)]

theorem Kept.trans (h : Kept M roots e m m₁) (h' : Kept M roots e m₁ m') :
    Kept M roots e m m' := by
  intro q hq
  rw [h' q, h q hq]
  rcases hq with hM | ⟨s, hs, hsq⟩
  · exact Or.inl hM
  · exact Or.inr ⟨s, hs, by rw [h.target_eq hs, hsq]⟩

/-! ## Reading and storing by the entry -/

/-- Some of the bits that are all set. -/
theorem and_eq_of_and_eq {w s x : Word} (h : w &&& s = s) (hx : s &&& x = x) : w &&& x = x := by
  rw [← hx, ← BitVec.and_assoc, h]

theorem not_data_zero (x : Word) (hx : x ≠ 0) : ¬ (0 : Word) &&& x = x := by
  intro heq
  exact hx (heq.symm.trans BitVec.zero_and)

section Entry

variable (h : Loading M roots e d m) (hva : va < utop)
include h hva

/-- A user address has no page table, or it has one that is open to the
user. -/
theorem Loading.pde_cases :
    (m.frames d (pdx va) = 0 ∧
        entryAt roots m e ⟨pdx va, pdx_lt_of_lt hva⟩ ⟨ptx va, ptx_lt va⟩ = 0) ∨
      (m.frames d (pdx va) &&& pteData = pteData ∧
        entryAt roots m e ⟨pdx va, pdx_lt_of_lt hva⟩ ⟨ptx va, ptx_lt va⟩ =
          m.frames (pgnum (m.frames d (pdx va))) (ptx va)) := by
  have hpde := target_pde (m := m) (i := ⟨pdx va, pdx_lt_of_lt hva⟩) h.root
  rcases h.pde (pdx va) (pdx_lt_of_lt hva) with hzero | hdata
  · refine Or.inl ⟨hzero, entryAt_none ?_⟩
    rw [hpde, entryPage, hzero]
    rfl
  · refine Or.inr ⟨hdata, entryAt_some ?_⟩
    have hp : m.frames d (pdx va) &&& pteP ≠ 0 := by
      rw [and_eq_of_and_eq hdata (by decide)]
      decide
    rw [hpde, entryPage, if_neg hp]

theorem Loading.read_eq :
    userRead m d va =
      if entryAt roots m e ⟨pdx va, pdx_lt_of_lt hva⟩ ⟨ptx va, ptx_lt va⟩ = 0 then none
      else some (m.byte
        (pgnum (entryAt roots m e ⟨pdx va, pdx_lt_of_lt hva⟩ ⟨ptx va, ptx_lt va⟩)) (pgoff va)) := by
  unfold userRead
  rcases h.pde_cases hva with ⟨hpde, hentry⟩ | ⟨hpde, hentry⟩
  · rw [if_pos hentry, if_neg]
    rintro ⟨hbits, -⟩
    rw [hpde] at hbits
    exact not_data_zero _ (by decide) hbits
  · rcases h.pte ⟨pdx va, pdx_lt_of_lt hva⟩ ⟨ptx va, ptx_lt va⟩ with hzero | hdata
    · rw [if_pos hzero, if_neg]
      rintro ⟨-, hbits⟩
      rw [← hentry, hzero] at hbits
      exact not_data_zero _ (by decide) hbits
    · have hne : entryAt roots m e ⟨pdx va, pdx_lt_of_lt hva⟩ ⟨ptx va, ptx_lt va⟩ ≠ 0 := by
        intro hzero
        rw [hzero] at hdata
        exact not_data_zero _ (by decide) hdata
      rw [if_neg hne, if_pos, hentry]
      refine ⟨and_eq_of_and_eq hpde (by decide), ?_⟩
      rw [← hentry]
      exact and_eq_of_and_eq hdata (by decide)

theorem Loading.storeByte_eq (v : BitVec 8) :
    storeByte d m va v =
      if entryAt roots m e ⟨pdx va, pdx_lt_of_lt hva⟩ ⟨ptx va, ptx_lt va⟩ = 0 then
        .error (.fault va)
      else .ok (m.setByte
        (pgnum (entryAt roots m e ⟨pdx va, pdx_lt_of_lt hva⟩ ⟨ptx va, ptx_lt va⟩)) (pgoff va) v) := by
  have hzeroBits : writable 0 = false := by decide
  have hopen : ∀ w, w &&& pteData = pteData → writable w = true := by
    intro w hw
    rw [writable, beq_iff_eq]
    exact and_eq_of_and_eq hw (by decide)
  rw [storeByte, if_neg (BitVec.not_le.mpr hva)]
  dsimp only
  rcases h.pde_cases hva with ⟨hpde, hentry⟩ | ⟨hpde, hentry⟩
  · rw [if_pos hentry, hpde, hzeroBits]
    rfl
  · rw [← hentry, hopen _ hpde]
    rcases h.pte ⟨pdx va, pdx_lt_of_lt hva⟩ ⟨ptx va, ptx_lt va⟩ with hzero | hdata
    · rw [if_pos hzero, hzero, hzeroBits]
      rfl
    · have hne : entryAt roots m e ⟨pdx va, pdx_lt_of_lt hva⟩ ⟨ptx va, ptx_lt va⟩ ≠ 0 := by
        intro hzero
        rw [hzero] at hdata
        exact not_data_zero _ (by decide) hdata
      rw [if_neg hne, hopen _ hdata]
      rfl

end Entry

/-! ## One byte stored -/

/-- The page behind an entry. -/
theorem Loading.target_some (h : Loading M roots e d m) (hne : entryAt roots m e i j ≠ 0) :
    target roots m (.pte e i j) = some (pgnum (entryAt roots m e i j)) := by
  have hdata := (h.pte i j).resolve_left hne
  have hp : entryAt roots m e i j &&& pteP ≠ 0 := by
    rw [and_eq_of_and_eq hdata (by decide)]
    decide
  rw [target_pte_entryAt, entryPage, if_neg hp]

/-- A user address is mapped exactly when it can be read. -/
theorem Loading.mapped_iff (h : Loading M roots e d m) (hva : va < utop) :
    userRead m d va ≠ none ↔
      entryAt roots m e ⟨pdx va, pdx_lt_of_lt hva⟩ ⟨ptx va, ptx_lt va⟩ ≠ 0 := by
  rw [h.read_eq hva]
  split
  · rename_i hzero
    simp [hzero]
  · rename_i hne
    simpa using hne

/-- The address is its page and its offset. -/
theorem eq_of_pgnum_pgoff {a b : Word} (hp : pgnum a = pgnum b) (ho : pgoff a = pgoff b) : a = b := by
  apply BitVec.eq_of_toNat_eq
  simp only [pgnum, pgoff] at hp ho
  omega

/-- A store to a mapped address changes what is read there, and nothing
else. -/
theorem Loading.storeByte_spec (h : Loading M roots e d m) (hva : va < utop)
    (hmapped : userRead m d va ≠ none) (v : BitVec 8) :
    ∃ m', storeByte d m va v = .ok m' ∧ Loading M roots e d m' ∧ Kept M roots e m m' ∧
      m'.pageFreeList = m.pageFreeList ∧
      ∀ va' < utop, userRead m' d va' = if va' = va then some v else userRead m d va' := by
  have hne := (h.mapped_iff hva).mp hmapped
  have htarget := h.target_some hne
  have hmappable := h.mem.mappable (Slot.not_table_pte _ _ _) htarget
  obtain ⟨h', htargets, hentries⟩ := h.mem.setLeaf hmappable (pgoff va / 4)
    (wordSetByte (m.frames (pgnum (entryAt roots m e ⟨pdx va, pdx_lt_of_lt hva⟩
      ⟨ptx va, ptx_lt va⟩)) (pgoff va / 4)) (pgoff va % 4) v)
  have hkeep : ∀ q, q ≠ pgnum (entryAt roots m e ⟨pdx va, pdx_lt_of_lt hva⟩ ⟨ptx va, ptx_lt va⟩) →
      (m.setByte (pgnum (entryAt roots m e ⟨pdx va, pdx_lt_of_lt hva⟩ ⟨ptx va, ptx_lt va⟩))
        (pgoff va) v).frames q = m.frames q := by
    intro q hq
    funext x
    rw [Pmap.setByte, setWord_frames, if_neg (fun hc => hq hc.1)]
  have hloading : Loading M roots e d (m.setByte
      (pgnum (entryAt roots m e ⟨pdx va, pdx_lt_of_lt hva⟩ ⟨ptx va, ptx_lt va⟩)) (pgoff va) v) := by
    refine ⟨h', h.root, ?_, ?_, ?_⟩
    · intro x hx
      rw [hkeep d (fun heq => hmappable.leaf (.pgdir e) trivial (heq ▸ h.root))]
      exact h.pde x hx
    · intro i j
      rw [Pmap.setByte, hentries]
      exact h.pte i j
    · intro i j p hp s hs
      rw [Pmap.setByte, htargets] at hp hs
      exact h.own i j p hp s hs
  refine ⟨_, ?_, hloading, ?_, rfl, ?_⟩
  · rw [h.storeByte_eq hva, if_neg hne]
  · intro q hq
    refine hkeep q ?_
    rintro rfl
    rcases hq with hM | ⟨s, hs, hsq⟩
    · exact hM (h.mem.managed htarget)
    · rw [h.own _ _ _ htarget s hsq] at hs
      exact hs rfl
  · intro va' hva'
    have hentry : ∀ i j, entryAt roots (m.setByte (pgnum (entryAt roots m e ⟨pdx va,
        pdx_lt_of_lt hva⟩ ⟨ptx va, ptx_lt va⟩)) (pgoff va) v) e i j = entryAt roots m e i j := by
      intro i j
      rw [Pmap.setByte, hentries]
    rw [hloading.read_eq hva', h.read_eq hva', hentry, byte_setByte]
    by_cases heq : va' = va
    · subst heq
      rw [if_neg hne, if_pos ⟨rfl, rfl⟩, if_pos rfl]
    · rw [if_neg heq]
      by_cases hzero : entryAt roots m e ⟨pdx va', pdx_lt_of_lt hva'⟩ ⟨ptx va', ptx_lt va'⟩ = 0
      · rw [if_pos hzero, if_pos hzero]
      · rw [if_neg hzero, if_neg hzero, if_neg]
        rintro ⟨hpage, hoff⟩
        -- one page has one slot
        have hother := h.target_some hzero
        rw [hpage] at hother
        have hslot := h.own _ _ _ htarget _ hother
        simp only [Slot.pte.injEq, Fin.mk.injEq, true_and] at hslot
        exact heq (eq_of_pgnum_pgoff (pgnum_eq_iff.mpr hslot) hoff)

/-! ## `region_alloc` -/

/-- `page_alloc(0)` leaves the page as it is. -/
theorem MemInv.untaken (h : MemInv M roots held m) {rest : List Nat}
    (hfree : m.pageFreeList = pp :: rest) :
    MemInv M roots held { m with pageFreeList := rest } ∧
      Mappable M roots { m with pageFreeList := rest } pp ∧ m.ppRef pp = 0 := by
  have hmem : pp ∈ m.pageFreeList := by
    rw [hfree]
    exact List.mem_cons_self
  obtain ⟨hM, href⟩ := h.sound.free pp hmem
  have hnodup := h.sound.nodup
  rw [show (pool roots held m).free = pp :: rest from hfree] at hnodup
  refine ⟨⟨h.sound.take hfree, h.npages, h.small, h.bound, h.kernel, h.pde, h.pte⟩,
    ⟨hM, (List.nodup_cons.mp hnodup).1, fun s _ => ?_⟩, href⟩
  exact h.unused_of_free hmem

theorem or_and_self_right (x s : Word) : (x ||| s) &&& s = s := by
  ext i hi
  simp only [BitVec.getElem_and, BitVec.getElem_or]
  cases x[i] <;> cases s[i] <;> rfl

theorem table_data (t : Nat) : (page2pa t ||| pteP ||| pteW ||| pteU) &&& pteData = pteData := by
  rw [BitVec.or_assoc, BitVec.or_assoc]
  exact or_and_self_right _ _

theorem page_data (p : Nat) : (page2pa p ||| (pteU ||| pteW) ||| pteP) &&& pteData = pteData := by
  rw [BitVec.or_assoc]
  exact or_and_self_right _ _

/-- One page of `region_alloc`: the address is mapped afterwards, to a page
nobody else has, and what is behind other addresses is not touched. -/
theorem Loading.allocPage_spec (h : Loading M roots e d m) (hva : va < utop)
    (hroom : 2 ≤ m.pageFreeList.length) :
    ∃ m', allocPage d m va = .ok m' ∧ Loading M roots e d m' ∧ Kept M roots e m m' ∧
      m.pageFreeList.length ≤ m'.pageFreeList.length + 2 ∧
      ∀ va' < utop, if pgnum va' = pgnum va then userRead m' d va' ≠ none
        else userRead m' d va' = userRead m d va' := by
  cases hfree : m.pageFreeList with
  | nil =>
      rw [hfree] at hroom
      cases hroom
  | cons pp rest =>
      obtain ⟨h₁, hpp, href⟩ := h.mem.untaken hfree
      have hi : pdx va = (⟨pdx va, pdx_lt_of_lt hva⟩ : Fin userPdes).val := rfl
      have hj : ptx va = (⟨ptx va, ptx_lt va⟩ : Fin nptentries).val := rfl
      have hharm : Harmless pp (pteU ||| pteW) := by
        have hzero : (pteU ||| pteW) &&& ~~~pteSyscall = 0 := by decide
        exact harmless_of_syscallPerm hzero
      have hlt : m.ppRef pp < 65535 := by omega
      have hlen : m.pageFreeList.length = rest.length + 1 := by rw [hfree, List.length_cons]
      have hmem : pp ∈ m.pageFreeList := by
        rw [hfree]
        exact List.mem_cons_self
      rcases h₁.pageInsert_spec h.root hi hj hpp hharm hlt
        with ⟨-, -, hempty⟩ | ⟨m', hins, h', hinserted⟩
      · replace hempty : rest = [] := hempty
        rw [hempty] at hlen
        rw [hlen] at hroom
        exact absurd hroom (by decide)
      · obtain ⟨hapart, hdirs⟩ := h₁.pageInsert_frames h.root hi hins rfl
        have hentry : ∀ i' j', entryAt roots m' e i' j' = if Slot.pte e i' j' =
            .pte e ⟨pdx va, pdx_lt_of_lt hva⟩ ⟨ptx va, ptx_lt va⟩ then
              page2pa pp ||| (pteU ||| pteW) ||| pteP else entryAt roots m e i' j' :=
          fun i' j' => h₁.entryAt_pageInsert h.root hi hj hins rfl
        have hloading : Loading M roots e d m' := by
          refine ⟨h', h.root, ?_, ?_, ?_⟩
          · intro x hx
            rcases hdirs x with hsame | ⟨t, htable⟩
            · rw [hsame]
              exact h.pde x hx
            · rw [htable]
              exact Or.inr (table_data t)
          · intro i' j'
            rw [hentry]
            split
            · exact Or.inr (page_data pp)
            · exact h.pte i' j'
          · intro i' j' p hp s hs
            by_cases htable : s.Table
            · exact absurd (h'.table_eq htable hs hp ▸ htable) (Slot.not_table_pte e i' j')
            · rw [hinserted.leaf _ (Slot.not_table_pte e i' j')] at hp
              rw [hinserted.leaf s htable] at hs
              split at hp
              · rename_i hslot
                cases hp
                split at hs
                · rename_i hslot'
                  rw [hslot', hslot]
                · exact absurd hs (h.mem.unused_of_free hmem)
              · split at hs
                · cases hs
                  exact (h.mem.unused_of_free (s := .pte e i' j') hmem hp).elim
                · exact h.own i' j' p hp s hs
        refine ⟨m', ?_, hloading, ?_, ?_, ?_⟩
        · rw [allocPage, pageTake, hfree]
          dsimp only
          rw [hins]
          rfl
        · intro q hq
          refine hapart q ?_
          rcases hq with hM | ⟨s, hs, hsq⟩
          · exact h₁.apart_kernel hM
          · exact h₁.apart (fun _ => hs) hsq
        · have hlength : rest.length ≤ m'.pageFreeList.length + if _ then 1 else 0 :=
            hinserted.length
          rw [List.length_cons]
          split at hlength <;> omega
        · intro va' hva'
          split
          · rename_i hpage
            rw [hloading.mapped_iff hva', hentry, if_pos]
            · exact fun hzero => not_data_zero _ (by decide) (hzero ▸ page_data pp)
            · obtain ⟨hdir, htab⟩ := pgnum_eq_iff.mp hpage
              simp only [hdir, htab]
          · rename_i hpage
            have hslot : ¬ Slot.pte e ⟨pdx va', pdx_lt_of_lt hva'⟩ ⟨ptx va', ptx_lt va'⟩ =
                .pte e ⟨pdx va, pdx_lt_of_lt hva⟩ ⟨ptx va, ptx_lt va⟩ := by
              intro heq
              simp only [Slot.pte.injEq, Fin.mk.injEq, true_and] at heq
              exact hpage (pgnum_eq_iff.mpr heq)
            rw [hloading.read_eq hva', h.read_eq hva', hentry, if_neg hslot]
            split
            · rfl
            · rename_i hne
              have hdata : Apart roots { m with pageFreeList := rest } e _ :=
                h₁.apart (fun hs => absurd hs (Slot.not_table_pte _ _ _)) (h.target_some hne)
              rw [Pmap.byte, Pmap.byte, hapart _ hdata]

/-- The pages of `[va, va + len)`. -/
def CoversPage (va len : Nat) (p : Nat) : Prop := va / 4096 ≤ p ∧ p < (va + len + 4095) / 4096

/-- How many they are. -/
def pageCount (va len : Nat) : Nat := (va + len + 4095) / 4096 - va / 4096

/-- What a loop of insertions does: the pages from `a` up to `b` are mapped
afterwards. -/
structure Allocated (M : Nat → Prop) (roots : EnvIdx → Option Nat) (e : EnvIdx) (d : Nat)
    (m m' : Pmap) (a b : Nat) : Prop where
  loading : Loading M roots e d m'
  kept : Kept M roots e m m'
  room : m.pageFreeList.length ≤ m'.pageFreeList.length + 2 * (b - a)
  inside : ∀ va < utop, a ≤ pgnum va → pgnum va < b → userRead m' d va ≠ none
  outside : ∀ va < utop, ¬ (a ≤ pgnum va ∧ pgnum va < b) → userRead m' d va = userRead m d va

theorem Loading.allocPages_spec {vaHi : Word} {b : Nat} (hb : vaHi.toNat = b * 4096)
    (hlim : b ≤ 977920) (fuel : Nat) : ∀ (m : Pmap) (vaAct : Word) (a : Nat),
      Loading M roots e d m → vaAct.toNat = a * 4096 → b - a ≤ fuel →
      2 * (b - a) ≤ m.pageFreeList.length →
      ∃ m', allocPages d vaHi fuel vaAct m = .ok m' ∧ Allocated M roots e d m m' a b := by
  induction fuel with
  | zero =>
      intro m vaAct a h ha hfuel hroom
      refine ⟨m, rfl, h, Kept.refl, by omega, ?_, fun _ _ _ => rfl⟩
      intro va _ hlo hhi
      omega
  | succ fuel ih =>
      intro m vaAct a h ha hfuel hroom
      rw [allocPages]
      by_cases hlt : vaAct < vaHi
      · have hab : a < b := by
          have : vaAct.toNat < vaHi.toNat := hlt
          omega
        have hva : vaAct < utop := by
          show vaAct.toNat < 4005560320
          omega
        have hpage : pgnum vaAct = a := by
          rw [pgnum, ha]
          omega
        obtain ⟨m₁, halloc, h₁, hkept, hlen, hread⟩ := h.allocPage_spec hva (by omega)
        have hnext : (vaAct + 4096).toNat = (a + 1) * 4096 := by
          rw [BitVec.toNat_add, toNat_pgsize]
          omega
        obtain ⟨m', hrest, hall⟩ := ih m₁ (vaAct + 4096) (a + 1) h₁ hnext (by omega) (by omega)
        refine ⟨m', ?_, hall.loading, hkept.trans hall.kept, ?_, ?_, ?_⟩
        · rw [if_pos hlt, halloc]
          exact hrest
        · have := hall.room
          omega
        · intro va hva' hlo hhi
          by_cases heq : pgnum va = a
          · rw [hall.outside va hva' (by omega)]
            have := hread va hva'
            rwa [if_pos (by omega)] at this
          · exact hall.inside va hva' (by omega) hhi
        · intro va hva' hout
          rw [hall.outside va hva' (by omega)]
          have := hread va hva'
          rwa [if_neg (by omega)] at this
      · have hba : b ≤ a := by
          have : ¬ vaAct.toNat < vaHi.toNat := hlt
          omega
        refine ⟨m, if_neg hlt, h, Kept.refl, by omega, ?_, fun _ _ _ => rfl⟩
        intro va _ hlo hhi
        omega

theorem Loading.regionAlloc_spec (h : Loading M roots e d m) (va len : Word)
    (hfit : va.toNat + len.toNat ≤ utop.toNat)
    (hroom : 2 * pageCount va.toNat len.toNat ≤ m.pageFreeList.length) :
    ∃ m', regionAlloc d m va len = .ok m' ∧ Allocated M roots e d m m' (va.toNat / 4096)
      ((va.toNat + len.toNat + 4095) / 4096) := by
  have htop : utop.toNat = 4005560320 := rfl
  have hsum : (va + len).toNat = va.toNat + len.toNat := by
    rw [BitVec.toNat_add]
    omega
  have hhi : (roundup (va + len)).toNat = (va.toNat + len.toNat + 4095) / 4096 * 4096 := by
    rw [toNat_roundup (by omega), hsum]
  have hle : ¬ roundup (va + len) > utop := by
    show ¬ utop.toNat < (roundup (va + len)).toNat
    omega
  have hfuel : npages32 = 1048576 := rfl
  rw [regionAlloc, if_neg hle]
  exact allocPages_spec hhi (by omega) _ m _ _ h (toNat_rounddown va) (by omega) hroom

/-! ## `memset`, `memcpy` -/

/-- A loop that stores `f` over `n` mapped bytes from `va` on. -/
theorem Loading.storeBytes_spec (va : Word) (f : Nat → BitVec 8) : ∀ (n : Nat) (m : Pmap),
    Loading M roots e d m → va.toNat + n ≤ utop.toNat →
    (∀ va' < utop, va.toNat ≤ va'.toNat → va'.toNat < va.toNat + n → userRead m d va' ≠ none) →
    ∃ m', (List.range n).foldlM (fun m i => storeByte d m (va + BitVec.ofNat 32 i) (f i)) m = .ok m' ∧
      Loading M roots e d m' ∧ Kept M roots e m m' ∧ m'.pageFreeList = m.pageFreeList ∧
      ∀ va' < utop, userRead m' d va' =
        if va.toNat ≤ va'.toNat ∧ va'.toNat < va.toNat + n then some (f (va'.toNat - va.toNat))
        else userRead m d va' := by
  have htop : utop.toNat = 4005560320 := rfl
  intro n
  induction n with
  | zero =>
      intro m h _ _
      refine ⟨m, rfl, h, Kept.refl, rfl, fun va' _ => ?_⟩
      rw [if_neg (by omega)]
  | succ n ih =>
      intro m h hfit hmapped
      obtain ⟨m₁, hloop, h₁, hkept₁, hfree₁, hread₁⟩ :=
        ih m h (by omega) (fun va' hva' hlo hhi => hmapped va' hva' hlo (by omega))
      have hnext : (va + BitVec.ofNat 32 n).toNat = va.toNat + n := by
        rw [BitVec.toNat_add, BitVec.toNat_ofNat]
        omega
      have hva : va + BitVec.ofNat 32 n < utop := by
        show (va + BitVec.ofNat 32 n).toNat < utop.toNat
        omega
      have hmapped₁ : userRead m₁ d (va + BitVec.ofNat 32 n) ≠ none := by
        rw [hread₁ _ hva, if_neg (by omega)]
        exact hmapped _ hva (by omega) (by omega)
      obtain ⟨m', hstore, h', hkept', hfree', hread'⟩ := h₁.storeByte_spec hva hmapped₁ (f n)
      refine ⟨m', ?_, h', hkept₁.trans hkept', hfree'.trans hfree₁, ?_⟩
      · rw [List.range_succ, List.foldlM_append, hloop]
        refine bind_ok.mpr ⟨m₁, rfl, ?_⟩
        rw [List.foldlM_cons, hstore]
        rfl
      · intro va' hva'
        rw [hread' va' hva', hread₁ va' hva']
        by_cases heq : va' = va + BitVec.ofNat 32 n
        · subst heq
          rw [if_pos rfl, if_pos (by omega), hnext, Nat.add_sub_cancel_left]
        · have hne : va'.toNat ≠ va.toNat + n := by
            rw [← hnext]
            exact fun hc => heq (BitVec.eq_of_toNat_eq hc)
          rw [if_neg heq]
          by_cases hin : va.toNat ≤ va'.toNat ∧ va'.toNat < va.toNat + n
          · rw [if_pos hin, if_pos (by omega)]
          · rw [if_neg hin, if_neg (by omega)]

/-! ## Segments -/

/-- The segment touches the page of `va`. -/
def Proghdr.Covers (ph : Proghdr) (va : Word) : Prop :=
  CoversPage ph.pVa.toNat ph.pMemsz.toNat (pgnum va)

instance (ph : Proghdr) (va : Word) : Decidable (ph.Covers va) :=
  inferInstanceAs (Decidable (_ ∧ _))

/-- What the loader needs of a segment: it ends below `UTOP`, and the file
holds no more of it than memory does. -/
structure Proghdr.Fits (ph : Proghdr) : Prop where
  below : ph.pVa.toNat + ph.pMemsz.toNat ≤ utop.toNat
  filesz : ph.pFilesz.toNat ≤ ph.pMemsz.toNat

/-- Byte `va` of the segment: from the file as far as that goes, then zero. -/
def Proghdr.contents (kmem : Word → BitVec 8) (binary : Word) (ph : Proghdr) (va : Word) :
    BitVec 8 :=
  if va - ph.pVa < ph.pFilesz then kmem (binary + ph.pOffset + (va - ph.pVa)) else 0

/-- The address is one of the segment. -/
def Proghdr.Holds (ph : Proghdr) (va : Word) : Prop :=
  ph.pVa.toNat ≤ va.toNat ∧ va.toNat < ph.pVa.toNat + ph.pMemsz.toNat

instance (ph : Proghdr) (va : Word) : Decidable (ph.Holds va) :=
  inferInstanceAs (Decidable (_ ∧ _))

theorem Proghdr.covers_of_holds {ph : Proghdr} {va : Word} (h : ph.Holds va) : ph.Covers va := by
  obtain ⟨hlo, hhi⟩ := h
  simp only [Proghdr.Covers, CoversPage, pgnum]
  omega

/-- One segment loaded. -/
structure SegmentLoaded (kmem : Word → BitVec 8) (binary : Word) (M : Nat → Prop)
    (roots : EnvIdx → Option Nat) (e : EnvIdx) (d : Nat) (m m' : Pmap) (ph : Proghdr) : Prop where
  loading : Loading M roots e d m'
  kept : Kept M roots e m m'
  room : m.pageFreeList.length ≤
    m'.pageFreeList.length + 2 * pageCount ph.pVa.toNat ph.pMemsz.toNat
  outside : ∀ va < utop, ¬ ph.Covers va → userRead m' d va = userRead m d va
  mapped : ∀ va < utop, ph.Covers va → userRead m' d va ≠ none
  contents : ∀ va < utop, ph.Holds va → userRead m' d va = some (ph.contents kmem binary va)

variable {kmem : Word → BitVec 8} {binary : Word}

theorem Loading.loadSegment_spec (h : Loading M roots e d m) (kmem : Word → BitVec 8)
    (binary : Word) {ph : Proghdr}
    (htype : ph.pType = elfProgLoad) (hfits : ph.Fits)
    (hroom : 2 * pageCount ph.pVa.toNat ph.pMemsz.toNat ≤ m.pageFreeList.length) :
    ∃ m', loadSegment kmem binary d m ph = .ok m' ∧
      SegmentLoaded kmem binary M roots e d m m' ph := by
  have hbelow := hfits.below
  have hfilesz := hfits.filesz
  obtain ⟨m₁, halloc, hall⟩ := h.regionAlloc_spec ph.pVa ph.pMemsz hbelow hroom
  have hmapped₁ : ∀ va < utop, ph.Covers va → userRead m₁ d va ≠ none :=
    fun va hva hcov => hall.inside va hva hcov.1 hcov.2
  obtain ⟨m₂, hset, h₂, hkept₂, hfree₂, hread₂⟩ := Loading.storeBytes_spec ph.pVa (fun _ => 0)
    ph.pMemsz.toNat m₁ hall.loading hbelow
    (fun va hva hlo hhi => hmapped₁ va hva (Proghdr.covers_of_holds ⟨hlo, hhi⟩))
  have hmapped₂ : ∀ va < utop, ph.Covers va → userRead m₂ d va ≠ none := by
    intro va hva hcov
    rw [hread₂ va hva]
    split
    · exact Option.some_ne_none _
    · exact hmapped₁ va hva hcov
  obtain ⟨m₃, hcpy, h₃, hkept₃, hfree₃, hread₃⟩ := Loading.storeBytes_spec ph.pVa
    (fun i => kmem (binary + ph.pOffset + BitVec.ofNat 32 i)) ph.pFilesz.toNat m₂ h₂ (by omega)
    (fun va hva hlo hhi => hmapped₂ va hva (Proghdr.covers_of_holds ⟨hlo, by omega⟩))
  have hread : ∀ va < utop, userRead m₃ d va =
      if ph.Holds va then some (ph.contents kmem binary va) else userRead m₁ d va := by
    intro va hva
    rw [hread₃ va hva, hread₂ va hva]
    by_cases hholds : ph.Holds va
    · obtain ⟨hlo, hhi⟩ := hholds
      have hsub : (va - ph.pVa).toNat = va.toNat - ph.pVa.toNat := BitVec.toNat_sub_of_le hlo
      have hoff : BitVec.ofNat 32 (va.toNat - ph.pVa.toNat) = va - ph.pVa := by
        rw [← hsub, BitVec.ofNat_toNat, BitVec.setWidth_eq]
      rw [if_pos (show ph.Holds va from ⟨hlo, hhi⟩), Proghdr.contents]
      by_cases hfile : va.toNat < ph.pVa.toNat + ph.pFilesz.toNat
      · have hlt : va - ph.pVa < ph.pFilesz := by
          show (va - ph.pVa).toNat < ph.pFilesz.toNat
          omega
        rw [if_pos ⟨hlo, hfile⟩, if_pos hlt, hoff]
      · have hlt : ¬ va - ph.pVa < ph.pFilesz := by
          show ¬ (va - ph.pVa).toNat < ph.pFilesz.toNat
          omega
        rw [if_neg (fun hc => hfile hc.2), if_neg hlt, if_pos ⟨hlo, hhi⟩]
    · rw [if_neg hholds, if_neg, if_neg (show ¬ (_ ∧ _) from hholds)]
      rintro ⟨hlo, hhi⟩
      exact hholds ⟨hlo, by omega⟩
  refine ⟨m₃, ?_, h₃, (hall.kept.trans hkept₂).trans hkept₃, ?_, ?_, ?_, ?_⟩
  · rw [loadSegment, if_neg (not_not.mpr htype)]
    exact bind_ok.mpr ⟨m₁, halloc, bind_ok.mpr ⟨m₂, hset, hcpy⟩⟩
  · rw [hfree₃, hfree₂]
    exact hall.room
  · intro va hva hcov
    rw [hread va hva, if_neg (fun hholds => hcov (Proghdr.covers_of_holds hholds))]
    exact hall.outside va hva hcov
  · intro va hva hcov
    rw [hread va hva]
    split
    · exact Option.some_ne_none _
    · exact hmapped₁ va hva hcov
  · intro va hva hholds
    rw [hread va hva, if_pos hholds]

/-! ## The whole program -/

/-- The segments that are loaded, in the order of the headers. -/
def segments (kmem : Word → BitVec 8) (binary : Word) : List Proghdr :=
  (proghdrs kmem binary).filter (·.pType = elfProgLoad)

/-- The segment that a page belongs to: the last one that touches it. -/
def ownerOf (phs : List Proghdr) (va : Word) : Option Proghdr :=
  (phs.filter (fun ph => ph.Covers va)).getLast?

theorem ownerOf_append_of_covers {phs : List Proghdr} {ph : Proghdr} {va : Word}
    (h : ph.Covers va) : ownerOf (phs ++ [ph]) va = some ph := by
  rw [ownerOf, List.filter_append, List.filter_cons_of_pos (by simpa using h), List.filter_nil,
    List.getLast?_append, List.getLast?_singleton]
  rfl

theorem ownerOf_append_of_not_covers {phs : List Proghdr} {ph : Proghdr} {va : Word}
    (h : ¬ ph.Covers va) : ownerOf (phs ++ [ph]) va = ownerOf phs va := by
  rw [ownerOf, ownerOf, List.filter_append, List.filter_cons_of_neg (by simpa using h),
    List.filter_nil, List.append_nil]

/-- The pages that segments take, page tables not counted. -/
def pagesOf (phs : List Proghdr) : Nat :=
  (phs.map (fun ph => pageCount ph.pVa.toNat ph.pMemsz.toNat)).sum

/-- The address space after some segments have been loaded into an empty
one. -/
structure Imaged (kmem : Word → BitVec 8) (binary : Word) (M : Nat → Prop)
    (roots : EnvIdx → Option Nat) (e : EnvIdx) (d : Nat) (m m' : Pmap) (phs : List Proghdr) :
    Prop where
  loading : Loading M roots e d m'
  kept : Kept M roots e m m'
  room : m.pageFreeList.length ≤ m'.pageFreeList.length + 2 * pagesOf phs
  unmapped : ∀ va < utop, ownerOf phs va = none → userRead m' d va = none
  mapped : ∀ va < utop, ∀ ph, ownerOf phs va = some ph → userRead m' d va ≠ none
  contents : ∀ va < utop, ∀ ph, ownerOf phs va = some ph → ph.Holds va →
    userRead m' d va = some (ph.contents kmem binary va)

/-- The loop over the headers. The last segment that touches a page has it
for itself: the ones before lose what they had there. -/
theorem Loading.loadSegments_spec (h : Loading M roots e d m) (kmem : Word → BitVec 8)
    (binary : Word)
    (hempty : ∀ va < utop, userRead m d va = none) (phs : List Proghdr)
    (hfits : ∀ ph ∈ phs.filter (·.pType = elfProgLoad), ph.Fits)
    (hroom : 2 * pagesOf (phs.filter (·.pType = elfProgLoad)) ≤ m.pageFreeList.length) :
    ∃ m', phs.foldlM (loadSegment kmem binary d) m = .ok m' ∧
      Imaged kmem binary M roots e d m m' (phs.filter (·.pType = elfProgLoad)) := by
  induction phs using List.reverseRecOn with
  | nil =>
      refine ⟨m, rfl, h, Kept.refl, Nat.le_add_right _ _, fun va hva _ => hempty va hva, ?_, ?_⟩
      · intro va _ ph hph
        cases hph
      · intro va _ ph hph
        cases hph
  | append_singleton phs ph ih =>
      by_cases htype : ph.pType = elfProgLoad
      · have hfilter : (phs ++ [ph]).filter (·.pType = elfProgLoad) =
            phs.filter (·.pType = elfProgLoad) ++ [ph] := by
          rw [List.filter_append, List.filter_cons_of_pos (by simpa using htype), List.filter_nil]
        rw [hfilter] at hfits hroom ⊢
        have hsum : pagesOf (phs.filter (·.pType = elfProgLoad) ++ [ph]) =
            pagesOf (phs.filter (·.pType = elfProgLoad)) +
              pageCount ph.pVa.toNat ph.pMemsz.toNat := by
          simp [pagesOf]
        rw [hsum] at hroom
        obtain ⟨m₁, hloop, himg⟩ :=
          ih (fun p hp => hfits p (List.mem_append_left _ hp)) (by omega)
        have hroom₁ := himg.room
        obtain ⟨m', hseg, hloaded⟩ := himg.loading.loadSegment_spec kmem binary
          htype (hfits ph (List.mem_append_right _ List.mem_cons_self))
          (by omega)
        refine ⟨m', ?_, hloaded.loading, himg.kept.trans hloaded.kept, ?_, ?_, ?_, ?_⟩
        · rw [List.foldlM_append, hloop]
          refine bind_ok.mpr ⟨m₁, rfl, ?_⟩
          rw [List.foldlM_cons, hseg]
          rfl
        · have := hloaded.room
          rw [hsum]
          omega
        · intro va hva hown
          by_cases hcov : ph.Covers va
          · rw [ownerOf_append_of_covers hcov] at hown
            cases hown
          · rw [ownerOf_append_of_not_covers hcov] at hown
            rw [hloaded.outside va hva hcov, himg.unmapped va hva hown]
        · intro va hva p hown
          by_cases hcov : ph.Covers va
          · exact hloaded.mapped va hva hcov
          · rw [ownerOf_append_of_not_covers hcov] at hown
            rw [hloaded.outside va hva hcov]
            exact himg.mapped va hva p hown
        · intro va hva p hown hholds
          by_cases hcov : ph.Covers va
          · rw [ownerOf_append_of_covers hcov] at hown
            cases hown
            exact hloaded.contents va hva hholds
          · rw [ownerOf_append_of_not_covers hcov] at hown
            rw [hloaded.outside va hva hcov]
            exact himg.contents va hva p hown hholds
      · have hfilter : (phs ++ [ph]).filter (·.pType = elfProgLoad) =
            phs.filter (·.pType = elfProgLoad) := by
          rw [List.filter_append, List.filter_cons_of_neg (by simpa using htype), List.filter_nil,
            List.append_nil]
        rw [hfilter] at hfits hroom ⊢
        obtain ⟨m₁, hloop, himg⟩ := ih hfits hroom
        refine ⟨m₁, ?_, himg⟩
        rw [List.foldlM_append, hloop]
        refine bind_ok.mpr ⟨m₁, rfl, ?_⟩
        rw [List.foldlM_cons, loadSegment, if_pos htype]
        rfl

/-! ## `env_create` -/

/-- What the other environments read stays. -/
theorem Kept.read_eq (h : Kept M roots e m m') {d' : Nat} (hd : roots e' = some d') (hne : e' ≠ e)
    (hva : va < utop) : userRead m' d' va = userRead m d' va := by
  have hdir : m'.frames d' = m.frames d' := h d' (Or.inr ⟨.pgdir e', hne, hd⟩)
  unfold userRead
  rw [hdir]
  by_cases hpde : m.frames d' (pdx va) &&& (pteP ||| pteU) = pteP ||| pteU
  · have ht : target roots m (.pde e' ⟨pdx va, pdx_lt_of_lt hva⟩) =
        some (pgnum (m.frames d' (pdx va))) := by
      have hp : m.frames d' (pdx va) &&& pteP ≠ 0 := by
        rw [and_eq_of_and_eq hpde (by decide)]
        decide
      rw [target_pde hd, entryPage, if_neg hp]
    have htable : m'.frames (pgnum (m.frames d' (pdx va))) =
        m.frames (pgnum (m.frames d' (pdx va))) := h _ (Or.inr ⟨.pde e' ⟨pdx va, pdx_lt_of_lt hva⟩, hne, ht⟩)
    dsimp only
    rw [htable]
    by_cases hpte : m.frames (pgnum (m.frames d' (pdx va))) (ptx va) &&& (pteP ||| pteU) =
        pteP ||| pteU
    · have hpage : target roots m (.pte e' ⟨pdx va, pdx_lt_of_lt hva⟩ ⟨ptx va, ptx_lt va⟩) =
          some (pgnum (m.frames (pgnum (m.frames d' (pdx va))) (ptx va))) := by
        have hp : m.frames (pgnum (m.frames d' (pdx va))) (ptx va) &&& pteP ≠ 0 := by
          rw [and_eq_of_and_eq hpte (by decide)]
          decide
        rw [target_pte_some ht, entryPage, if_neg hp]
      rw [if_pos ⟨hpde, hpte⟩, if_pos ⟨hpde, hpte⟩, Pmap.byte, Pmap.byte,
        h _ (Or.inr ⟨.pte e' ⟨pdx va, pdx_lt_of_lt hva⟩ ⟨ptx va, ptx_lt va⟩, hne, hpage⟩)]
    · rw [if_neg (fun hc => hpte hc.2), if_neg (fun hc => hpte hc.2)]
  · rw [if_neg (fun hc => hpde hc.1), if_neg (fun hc => hpde hc.1)]

/-- The page of the initial stack. -/
def OnStack (va : Word) : Prop := pgnum va = pgnum (ustacktop - 4096)

instance (va : Word) : Decidable (OnStack va) := inferInstanceAs (Decidable (_ = _))

/-- The new environment: runnable at the entry point, its stack empty, at
the highest priority. -/
def createdEnv (e : EnvIdx) (d : Nat) (entry : Word) (v : Env) : Env :=
  { freshEnv e 0 d v with
    envTf := { initialTrapframe with tfEip := entry }
    priority := maxPriority }

/-- `k'` is `k` with the program in a new environment. -/
structure ProgramLoaded (kmem : Word → BitVec 8) (binary : Word) (M : Nat → Prop)
    (k k' : Kernel) (e : EnvIdx) (d : Nat) : Prop where
  env : k'.envs e = createdEnv e d (word32 kmem (binary + 24)) (k.envs e)
  contents : ∀ va < utop, ¬ OnStack va → ∀ ph, ownerOf (segments kmem binary) va = some ph →
    ph.Holds va → userRead k'.mem d va = some (ph.contents kmem binary va)
  mapped : ∀ va < utop, OnStack va ∨ ownerOf (segments kmem binary) va ≠ none →
    userEntry k' e va &&& pteData = pteData
  unmapped : ∀ va < utop, ¬ OnStack va → ownerOf (segments kmem binary) va = none →
    userRead k'.mem d va = none
  others : ∀ e' ≠ e, k'.envs e' = k.envs e' ∧ ∀ d', liveRoot k e' = some d' →
    ∀ va < utop, userRead k'.mem d' va = userRead k.mem d' va
  kernel : ∀ q, ¬ M q → k'.mem.frames q = k.mem.frames q

/-- A new directory is empty below `UTOP`. -/
theorem MemInv.loading_new (h : MemInv M roots none m) (hnone : roots e = none)
    (hvm : envSetupVm m = some (d, m')) :
    Loading M (Function.update roots e (some d)) e d m' ∧ (∀ va < utop, userRead m' d va = none) ∧
      Kept M roots e m m' ∧ m.pageFreeList.length = m'.pageFreeList.length + 1 := by
  obtain ⟨h', htarget, hfree⟩ := h.envSetupVm_spec hnone hvm
  obtain ⟨-, -, -, -, hkeep, hcopy⟩ := envSetupVm_some hvm
  have hmem : d ∈ m.pageFreeList := by
    rw [hfree]
    exact List.mem_cons_self
  have hkern : m.kernPgdir ≠ d := fun heq => (h.small d (h.sound.free d hmem).1).2 heq.symm
  have hzero : ∀ x < userPdes, m'.frames d x = 0 := by
    intro x hx
    have huvpt : pdx uvpt = 957 := by decide
    have hlt : x < 955 := hx
    rw [hcopy hkern x (by omega), h.kernel x hx]
  have hroot : Function.update roots e (some d) e = some d := Function.update_self _ _ _
  have hpde : ∀ i, target (Function.update roots e (some d)) m' (.pde e i) = none := by
    intro i
    rw [target_pde hroot, hzero i i.isLt]
    rfl
  refine ⟨⟨h', hroot, fun x hx => Or.inl (hzero x hx), fun i j => Or.inl (entryAt_none (hpde i)),
    ?_⟩, ?_, ?_, by rw [hfree, List.length_cons]⟩
  · intro i j p hp
    rw [target_pte_none (hpde i)] at hp
    cases hp
  · intro va hva
    rw [userRead, hzero _ (pdx_lt_of_lt hva)]
    exact if_neg (fun hc => not_data_zero _ (by decide) hc.1)
  · intro q hq
    funext x
    refine hkeep q x ?_
    rintro rfl
    rcases hq with hM | ⟨s, -, hs⟩
    · exact hM (h.sound.free q hmem).1
    · exact h.unused_of_free hmem hs

/-- A store into a slot that keeps its status and its directory. -/
theorem KernelInv.modifyEnv {k : Kernel} (h : KernelInv M k) {f : Env → Env}
    (hstatus : (f (k.envs e)).envStatus = (k.envs e).envStatus)
    (hpgdir : (f (k.envs e)).envPgdir = (k.envs e).envPgdir) : KernelInv M (k.modifyEnv e f) := by
  have hroots : liveRoot (k.modifyEnv e f) = liveRoot k := by
    rw [liveRoot_modifyEnv, hstatus, hpgdir]
    exact Function.update_eq_self e (liveRoot k)
  have hsame : ∀ e', ((k.modifyEnv e f).envs e').envStatus = (k.envs e').envStatus ∧
      ((k.modifyEnv e f).envs e').envPgdir = (k.envs e').envPgdir := by
    intro e'
    rw [Kernel.modifyEnv_apply]
    split
    · rename_i heq
      subst heq
      exact ⟨hstatus, hpgdir⟩
    · exact ⟨rfl, rfl⟩
  refine ⟨?_, ?_, ?_, h.nodup⟩
  · rw [hroots]
    exact h.mem
  · intro e' he'
    rw [(hsame e').1] at he'
    rw [(hsame e').2]
    exact h.live e' he'
  · intro e' he'
    rw [(hsame e').1]
    exact h.free e' he'

/-- The loader on a new environment. -/
theorem Loading.loadIcode_spec {k : Kernel} (h : Loading M roots e d k.mem)
    (hempty : ∀ va < utop, userRead k.mem d va = none) (hd : (k.envs e).envPgdir = some d)
    (hmagic : word32 kmem binary = elfMagic) (hfits : ∀ ph ∈ segments kmem binary, ph.Fits)
    (hroom : 2 * pagesOf (segments kmem binary) + 2 ≤ k.mem.pageFreeList.length) :
    ∃ mem, loadIcode kmem k e binary = .ok (({ k with mem := mem } : Kernel).modifyEnv e
        (fun v => { v with envTf := { v.envTf with tfEip := word32 kmem (binary + 24) } })) ∧
      Loading M roots e d mem ∧ Kept M roots e k.mem mem ∧
      (∀ va < utop, OnStack va → userRead mem d va ≠ none) ∧
      ∀ va < utop, ¬ OnStack va →
        (ownerOf (segments kmem binary) va = none → userRead mem d va = none) ∧
        ∀ ph, ownerOf (segments kmem binary) va = some ph → userRead mem d va ≠ none ∧
          (ph.Holds va → userRead mem d va = some (ph.contents kmem binary va)) := by
  obtain ⟨m₁, hloop, himg⟩ := h.loadSegments_spec kmem binary hempty
    (proghdrs kmem binary) hfits (by unfold segments at hroom; omega)
  have hroom₁ := himg.room
  rw [← segments] at hroom₁
  have hone : pageCount (ustacktop - 4096).toNat (4096 : Word).toNat = 1 := by decide
  obtain ⟨mem, hstack, hall⟩ := himg.loading.regionAlloc_spec (ustacktop - 4096) 4096
    (by decide) (by rw [hone]; omega)
  have hlo : (ustacktop - 4096).toNat / 4096 = 977917 := by decide
  have hhi : ((ustacktop - 4096).toNat + (4096 : Word).toNat + 4095) / 4096 = 977918 := by decide
  have hpage : pgnum (ustacktop - 4096) = 977917 := by decide
  rw [hlo, hhi] at hall
  refine ⟨mem, ?_, hall.loading, himg.kept.trans hall.kept, ?_, ?_⟩
  · rw [loadIcode, if_neg (not_not.mpr hmagic), hd]
    exact bind_ok.mpr ⟨m₁, hloop, bind_ok.mpr ⟨mem, hstack, rfl⟩⟩
  · intro va hva hon
    rw [OnStack, hpage] at hon
    exact hall.inside va hva (by omega) (by omega)
  · intro va hva hoff
    rw [OnStack, hpage] at hoff
    have hsame := hall.outside va hva (by omega)
    rw [hsame]
    exact ⟨himg.unmapped va hva,
      fun ph hown => ⟨himg.mapped va hva ph hown, himg.contents va hva ph hown⟩⟩

/-- `env_alloc` as `env_create` calls it. -/
structure NewEnv (M : Nat → Prop) (k k₁ : Kernel) (e : EnvIdx) (d : Nat) : Prop where
  inv : KernelInv M k₁
  roots : liveRoot k₁ = Function.update (liveRoot k) e (some d)
  env : k₁.envs e = freshEnv e 0 d (k.envs e)
  others : ∀ e' ≠ e, k₁.envs e' = k.envs e'
  loading : Loading M (liveRoot k₁) e d k₁.mem
  empty : ∀ va < utop, userRead k₁.mem d va = none
  kept : Kept M (liveRoot k) e k.mem k₁.mem
  room : k.mem.pageFreeList.length = k₁.mem.pageFreeList.length + 1

theorem KernelInv.envAlloc_new {k : Kernel} {rest : List EnvIdx} (h : KernelInv M k)
    (hslot : k.envFreeList = e :: rest) (hroom : k.mem.pageFreeList ≠ []) :
    ∃ d k₁, envAlloc k 0 = .ok (e, k₁) ∧ NewEnv M k k₁ e d := by
  have hfree : (k.envs e).envStatus = .free := h.free e (by rw [hslot]; exact List.mem_cons_self)
  have hnone : liveRoot k e = none := if_pos hfree
  cases hvm : envSetupVm k.mem with
  | none =>
      obtain ⟨p, l, hlist⟩ := List.exists_cons_of_ne_nil hroom
      rw [envSetupVm, pageAlloc_cons hlist] at hvm
      cases hvm
  | some r =>
      obtain ⟨d, mem₁⟩ := r
      obtain ⟨hloading, hempty, hkept, hlen⟩ := h.mem.loading_new hnone hvm
      have halloc : envAlloc k 0 = .ok (e, ({ k with mem := mem₁, envFreeList := rest } :
          Kernel).modifyEnv e (freshEnv e 0 d)) := by
        rw [envAlloc, hslot]
        dsimp only
        rw [hvm]
      have hroots : liveRoot (({ k with mem := mem₁, envFreeList := rest } : Kernel).modifyEnv e
          (freshEnv e 0 d)) = Function.update (liveRoot k) e (some d) :=
        liveRoot_modifyEnv _ e _
      obtain ⟨k₁, hstep, hinv, -⟩ := h.envAlloc_step 0
      rw [pageStep, halloc] at hstep
      cases hstep
      refine ⟨d, _, halloc, hinv, hroots, Kernel.modifyEnv_self _ _ _,
        fun e' he' => Kernel.modifyEnv_of_ne _ _ he', ?_, hempty, hkept, hlen⟩
      rw [hroots]
      exact hloading

/-- **`env_create` loads the program.** With a free slot, enough free
pages and a header whose segments fit below `UTOP`, it returns, the memory
is in order, and the new environment reads its program: the segment that a
page belongs to, zeros behind what the file holds of it, and one page of
stack. Nothing else is mapped, and nobody else's memory has changed. -/
theorem env_create_loads {k : Kernel} {rest : List EnvIdx} (h : KernelInv M k)
    (hslot : k.envFreeList = e :: rest) (hmagic : word32 kmem binary = elfMagic)
    (hfits : ∀ ph ∈ segments kmem binary, ph.Fits)
    (hroom : 2 * pagesOf (segments kmem binary) + 3 ≤ k.mem.pageFreeList.length) :
    ∃ d k', envCreate kmem k binary = .ok (e, k') ∧ KernelInv M k' ∧
      ProgramLoaded kmem binary M k k' e d := by
  have hsome : k.mem.pageFreeList ≠ [] := by
    intro hnil
    rw [hnil] at hroom
    exact absurd hroom (by simp)
  obtain ⟨d, k₁, halloc, hnew⟩ := h.envAlloc_new hslot hsome
  have hlen := hnew.room
  have hpgdir : (k₁.envs e).envPgdir = some d := by
    rw [hnew.env]
    rfl
  obtain ⟨mem, hload, hfinal, hkept, hstack, hread⟩ := hnew.loading.loadIcode_spec
    hnew.empty hpgdir hmagic hfits (by omega)
  have hinv : KernelInv M ({ k₁ with mem := mem } : Kernel) := hnew.inv.withMem hfinal.mem
  have hloaded := KernelInv.modifyEnv (e := e) (f := fun v =>
    { v with envTf := { v.envTf with tfEip := word32 kmem (binary + 24) } }) hinv rfl rfl
  have hcreated := KernelInv.modifyEnv (e := e)
    (f := fun v => { v with priority := maxPriority }) hloaded rfl rfl
  refine ⟨d, _, ?_, hcreated, ?_⟩
  · rw [envCreate, halloc]
    exact bind_ok.mpr ⟨_, hload, rfl⟩
  · have hroot : ∀ e', liveRoot k₁ e' = if e' = e then some d else liveRoot k e' := by
      intro e'
      rw [hnew.roots, Function.update_apply]
    have henv : ∀ (f g : Env → Env), (((({ k₁ with mem := mem } : Kernel).modifyEnv e f).modifyEnv
        e g).envs e) = g (f (k₁.envs e)) := by
      intro f g
      rw [Kernel.modifyEnv_self, Kernel.modifyEnv_self]
    refine ⟨?_, ?_, ?_, ?_, ?_, ?_⟩
    · rw [henv, hnew.env]
      rfl
    · intro va hva hoff ph hown hholds
      exact ((hread va hva hoff).2 ph hown).2 hholds
    · intro va hva hwhere
      have hmapped : userRead mem d va ≠ none := by
        by_cases hon : OnStack va
        · exact hstack va hva hon
        · obtain ⟨ph, hown⟩ := Option.ne_none_iff_exists'.mp (hwhere.resolve_left hon)
          exact ((hread va hva hon).2 ph hown).1
      have hne := (hfinal.mapped_iff hva).mp hmapped
      have hentry : userEntry (((({ k₁ with mem := mem } : Kernel).modifyEnv e (fun v =>
          { v with envTf := { v.envTf with tfEip := word32 kmem (binary + 24) } })).modifyEnv e
          (fun v => { v with priority := maxPriority }))) e va =
          entryAt (liveRoot k₁) mem e ⟨pdx va, pdx_lt_of_lt hva⟩ ⟨ptx va, ptx_lt va⟩ := by
        rw [userEntry, henv, entryAt, target, hroot, if_pos rfl, hnew.env]
        rfl
      rw [hentry]
      exact (hfinal.pte _ _).resolve_left hne
    · intro va hva hoff hown
      exact (hread va hva hoff).1 hown
    · intro e' he'
      refine ⟨?_, ?_⟩
      · rw [Kernel.modifyEnv_of_ne _ _ he', Kernel.modifyEnv_of_ne _ _ he']
        exact hnew.others e' he'
      · intro d' hd' va hva
        have hafter : liveRoot k₁ e' = some d' := by
          rw [hroot, if_neg he', hd']
        exact (hkept.read_eq hafter he' hva).trans (hnew.kept.read_eq hd' he' hva)
    · intro q hq
      exact (hkept q (Or.inl hq)).trans (hnew.kept q (Or.inl hq))

/-! ## A program of two bytes -/

/-- An ELF header at the start of `binary`, one program header behind it,
and the bytes of the segment. -/
def tinyElf (a : Word) : BitVec 8 :=
  ([0x7F, 0x45, 0x4C, 0x46, 0, 0, 0, 0, 0, 0, 0, 0, 0, 0, 0, 0, 0, 0, 0, 0, 0, 0, 0, 0,
    0x20, 0x00, 0x80, 0x00, 52, 0, 0, 0, 0, 0, 0, 0, 0, 0, 0, 0, 0, 0, 0, 0, 1, 0, 0, 0, 0, 0, 0, 0,
    1, 0, 0, 0, 84, 0, 0, 0, 0x20, 0x00, 0x80, 0x00, 0, 0, 0, 0, 2, 0, 0, 0, 10, 0, 0, 0,
    0, 0, 0, 0, 0, 0, 0, 0, 0xEB, 0xFE] : List (BitVec 8)).getD (a - 0xF0200000).toNat 0

/-- Two bytes of code and eight of data that the file does not hold. -/
def tinySegment : Proghdr where
  pType := 1
  pOffset := 84
  pVa := 0x800020
  pFilesz := 2
  pMemsz := 10

theorem segments_tinyElf : segments tinyElf 0xF0200000 = [tinySegment] := by decide

/-- The program at `UTEXT` is there, with zeros behind it. -/
theorem env_create_loads_tinyElf : ∃ e d k', envCreate tinyElf pagesBoot 0xF0200000 = .ok (e, k') ∧
    userRead k'.mem d 0x800021 = some 0xFE ∧ userRead k'.mem d 0x800022 = some 0 ∧
    userRead k'.mem d 0x900000 = none := by
  obtain ⟨e, rest, hslot⟩ := allSlots_cons
  have hfits : ∀ ph ∈ segments tinyElf 0xF0200000, ph.Fits := by
    intro ph hph
    rw [segments_tinyElf, List.mem_singleton] at hph
    subst hph
    exact ⟨by decide, by decide⟩
  have hroom : 2 * pagesOf (segments tinyElf 0xF0200000) + 3 ≤
      pagesBoot.mem.pageFreeList.length := by
    rw [segments_tinyElf, show pagesBoot.mem.pageFreeList = bootPages from rfl, length_bootPages]
    decide
  obtain ⟨d, k', hcreate, -, hloaded⟩ := env_create_loads
    pagesBoot_booted.kernelInv hslot (by decide) hfits hroom
  have hown : ownerOf (segments tinyElf 0xF0200000) 0x800021 = some tinySegment := by
    rw [segments_tinyElf]
    decide
  have hown' : ownerOf (segments tinyElf 0xF0200000) 0x800022 = some tinySegment := by
    rw [segments_tinyElf]
    decide
  have hnobody : ownerOf (segments tinyElf 0xF0200000) 0x900000 = none := by
    rw [segments_tinyElf]
    decide
  refine ⟨e, d, k', hcreate, ?_, ?_, ?_⟩
  · exact hloaded.contents 0x800021 (by decide) (by decide) tinySegment hown (by decide)
  · exact hloaded.contents 0x800022 (by decide) (by decide) tinySegment hown' (by decide)
  · exact hloaded.unmapped 0x900000 (by decide) (by decide) hnobody

end SistemasOperativos.Kern
