/-
SistemasOperativos.Kern.ConsoleTheorems — from the keys to the commands.

`Received` follows the ring: what was read and what waits is what arrived,
less the rings that were lost. `Typing` follows the static buffer of
`readline`, and `IsString` the strings that `runcmd` cuts out of it. The
words of a line are read after the loop of `runcmd` is over, so the proof
of `parseArgs_spec` carries that what follows writes behind them only.
-/
import Mathlib.Data.List.Forall2
import Mathlib.Data.List.TakeWhile
import SistemasOperativos.Kern.Console

namespace SistemasOperativos.Kern

variable {serialExists : Bool} {cons : Cons} {data : List Byte}

/-! ## The ring of `cons` -/

/-- The characters of `data` that are kept: `cons_intr` skips zero. -/
def typed (data : List Byte) : List Byte := data.filter (fun c => c ≠ 0)

theorem typed_append (as bs : List Byte) : typed (as ++ bs) = typed as ++ typed bs :=
  List.filter_append ..

theorem ne_zero_of_mem_typed {c : Byte} (h : c ∈ typed data) : c ≠ 0 := by
  simpa using (List.mem_filter.mp h).2

theorem consIntr_eq (cons : Cons) (data : List Byte) :
    consIntr cons data = (typed data).foldl (Ring.push consbufsize) cons := by
  induction data generalizing cons with
  | nil => rfl
  | cons c data ih =>
      rw [consIntr, List.foldl_cons, ← consIntr, ih]
      by_cases hc : c = 0
      · have hput : consPut cons c = cons := if_pos hc
        rw [hput, typed, typed, List.filter_cons_of_neg (by simpa using hc)]
      · have hput : consPut cons c = Ring.push consbufsize cons c := if_neg hc
        rw [hput, typed, typed, List.filter_cons_of_pos (by simpa using hc), List.foldl_cons]

/-- What the buffer holds, the oldest first. -/
def waiting (cons : Cons) : List Byte := Ring.contents consbufsize cons

/-- The rings that a device has filled are lost. -/
theorem waiting_consIntr (h : Ring.InRange consbufsize cons) (data : List Byte) :
    waiting (consIntr cons data) = Ring.kept consbufsize (waiting cons ++ typed data) ∧
      Ring.InRange consbufsize (consIntr cons data) := by
  rw [consIntr_eq]
  exact Ring.contents_pushAll h (typed data)

/-- What the two devices bring; there may be no serial port. -/
def polled (serialExists : Bool) (serial kbd : List Byte) : List Byte :=
  (if serialExists then serial else []) ++ kbd

/-- Both devices are polled before the buffer is looked at. -/
theorem consGetc_eq (serialExists : Bool) (cons : Cons) (serial kbd : List Byte) :
    consGetc serialExists cons serial kbd =
      consGetc true (consIntr cons (polled serialExists serial kbd)) [] [] := by
  have hpoll : kbdIntr (serialIntr serialExists cons serial) kbd =
      consIntr cons (polled serialExists serial kbd) := by
    cases serialExists with
    | false => rfl
    | true => exact (List.foldl_append ..).symm
  rw [consGetc, hpoll]
  rfl

/-- From the boot on, `all` has arrived and `out` has been read. -/
structure Received (all out : List Byte) (cons : Cons) : Prop where
  range : Ring.InRange consbufsize cons
  sub : (out ++ waiting cons).Sublist all
  lost : ∃ k, all.length = (out ++ waiting cons).length + consbufsize * k
  nonzero : ∀ c ∈ all, c ≠ 0

variable {all out : List Byte}

theorem received_boot : Received [] [] consBoot :=
  ⟨⟨by decide, by decide⟩, List.Sublist.refl _, ⟨0, rfl⟩, fun c hc => by cases hc⟩

theorem Received.consIntr (h : Received all out cons) (data : List Byte) :
    Received (all ++ typed data) out (consIntr cons data) := by
  obtain ⟨hwait, hrange⟩ := waiting_consIntr h.range data
  obtain ⟨k, hk⟩ := h.lost
  refine ⟨hrange, ?_, ⟨k + (waiting cons ++ typed data).length / consbufsize, ?_⟩, ?_⟩
  · rw [hwait, Ring.kept]
    refine List.Sublist.trans ((List.Sublist.refl out).append (List.drop_sublist _ _)) ?_
    rw [← List.append_assoc]
    exact h.sub.append (List.Sublist.refl _)
  · have hdiv := Nat.div_add_mod (waiting cons ++ typed data).length consbufsize
    rw [hwait, List.length_append, List.length_append, Ring.length_kept, hk, Nat.mul_add]
    rw [List.length_append] at hdiv ⊢
    rw [List.length_append]
    omega
  · intro c hc
    rcases List.mem_append.mp hc with hc | hc
    · exact h.nonzero c hc
    · exact ne_zero_of_mem_typed hc

/-- `cons_getc` once the devices are polled: the oldest character, or none. -/
theorem Received.take (h : Received all out cons) {p : Byte × Cons}
    (hget : consGetc true cons [] [] = p) :
    Received all (if p.1 = 0 then out else out ++ [p.1]) p.2 ∧
      (if p.1 = 0 then out else out ++ [p.1]) ++ waiting p.2 = out ++ waiting cons ∧
      (waiting p.2).length = (waiting cons).length - 1 := by
  have hpop : consGetc true cons [] [] = (Ring.pop consbufsize cons).getD (0, cons) := by
    rw [Ring.pop]
    by_cases hne : cons.rpos ≠ cons.wpos
    · rw [if_pos hne]
      exact if_pos hne
    · rw [if_neg hne]
      exact if_neg hne
  rw [hpop] at hget
  cases hnext : Ring.pop consbufsize cons with
  | none =>
      rw [hnext] at hget
      cases hget
      have hnil : waiting cons = [] := (Ring.pop_none_iff h.range).mp hnext
      refine ⟨h, rfl, ?_⟩
      show (waiting cons).length = _
      rw [hnil]
      rfl
  | some q =>
      obtain ⟨c', cons''⟩ := q
      rw [hnext] at hget
      cases hget
      obtain ⟨hwait, hrange⟩ := Ring.contents_pop h.range hnext
      have hne : c' ≠ 0 := by
        refine h.nonzero c' (h.sub.subset (List.mem_append_right _ ?_))
        rw [waiting, hwait]
        exact List.mem_cons_self
      have hsame : out ++ [c'] ++ waiting cons'' = out ++ waiting cons := by
        rw [waiting, waiting, hwait, List.append_assoc]
        rfl
      show Received all (if c' = 0 then out else out ++ [c']) cons'' ∧
        (if c' = 0 then out else out ++ [c']) ++ waiting cons'' = out ++ waiting cons ∧ _
      rw [if_neg hne]
      refine ⟨⟨hrange, by rw [hsame]; exact h.sub, by rw [hsame]; exact h.lost, h.nonzero⟩,
        hsame, ?_⟩
      show (waiting cons'').length = (waiting cons).length - 1
      rw [waiting, waiting, hwait, List.length_cons, Nat.add_sub_cancel]

/-- What an event brings. -/
def ConsEvent.brings (serialExists : Bool) : ConsEvent → List Byte
  | .serial d => if serialExists then d else []
  | .kbd d => d
  | .getc d k => polled serialExists d k

theorem Received.step {s : List Byte × Cons} (h : Received all s.1 s.2) (ev : ConsEvent) :
    Received (all ++ typed (ev.brings serialExists)) (consStep serialExists s ev).1
      (consStep serialExists s ev).2 := by
  cases ev with
  | serial d =>
      have hintr : serialIntr serialExists s.2 d =
          Kern.consIntr s.2 (if serialExists then d else []) := by
        cases serialExists <;> rfl
      show Received _ s.1 (serialIntr serialExists s.2 d)
      rw [hintr]
      exact h.consIntr _
  | kbd d => exact h.consIntr d
  | getc d k =>
      exact ((h.consIntr (polled serialExists d k)).take (consGetc_eq serialExists s.2 d k).symm).1

theorem received_of_run (serialExists : Bool) (evs : List ConsEvent) :
    Received (typed (evs.flatMap (·.brings serialExists)))
      (evs.foldl (consStep serialExists) ([], consBoot)).1
      (evs.foldl (consStep serialExists) ([], consBoot)).2 := by
  induction evs using List.reverseRecOn with
  | nil => exact received_boot
  | append_singleton evs ev ih =>
      rw [List.flatMap_append, typed_append, List.foldl_append, List.flatMap_singleton]
      exact ih.step ev

/-- Less than a ring is not lost. -/
theorem Received.complete (h : Received all out cons) (hfew : all.length < out.length + 512) :
    out ++ waiting cons = all := by
  obtain ⟨k, hk⟩ := h.lost
  have hzero : k = 0 := by
    rw [List.length_append] at hk
    by_contra hne
    have hmul : 512 ≤ consbufsize * k := Nat.le_mul_of_pos_right 512 (Nat.pos_of_ne_zero hne)
    omega
  refine h.sub.eq_of_length ?_
  rw [hk, hzero, Nat.mul_zero, Nat.add_zero]

/-- Typing is only lost in full rings: in every run of interrupts and reads
from the boot on, what has been read and what still waits are, in order,
what the devices have sent, less a multiple of 512 characters. If fewer
than 512 more have been sent than read, nothing is lost. -/
theorem console_loses_full_rings (serialExists : Bool) (evs : List ConsEvent) :
    let sent := typed (evs.flatMap (·.brings serialExists))
    let s := evs.foldl (consStep serialExists) ([], consBoot)
    (s.1 ++ waiting s.2).Sublist sent ∧
      (∃ k, sent.length = (s.1 ++ waiting s.2).length + 512 * k) ∧
      (sent.length < s.1.length + 512 → s.1 ++ waiting s.2 = sent) := by
  have hrun := received_of_run serialExists evs
  exact ⟨hrun.sub, hrun.lost, hrun.complete⟩

/-! ## `readline` -/

/-- Backspace takes the last character away; on an empty line DEL is a
character as others are. A full line takes no more. -/
def typeChar (line : List Byte) (c : Byte) : List Byte :=
  if (c = 8 ∨ c = 0x7f) ∧ line ≠ [] then line.dropLast
  else if 32 ≤ c.toNat ∧ line.length < buflen - 1 then line ++ [c]
  else line

def isEol (c : Byte) : Prop := c = 10 ∨ c = 13

instance (c : Byte) : Decidable (isEol c) := inferInstanceAs (Decidable (_ ∨ _))

/-- The first `line.length` characters of `buf`. -/
def Prefix (buf : Nat → Byte) (line : List Byte) : Prop :=
  ∀ j (hj : j < line.length), buf j = line.get ⟨j, hj⟩

/-- `buf` and `i` hold the line. -/
structure Typing (s : Line) (line : List Byte) : Prop where
  i : s.i = line.length
  buf : Prefix s.buf line
  short : line.length < buflen
  printable : ∀ c ∈ line, 32 ≤ c.toNat

variable {s : Line} {line : List Byte} {c : Byte}

/-- The screen: a backspace takes a character back. -/
def shown (screen : List Byte) (c : Byte) : List Byte :=
  if c = 8 then screen.dropLast else screen ++ [c]

theorem Prefix.snoc {buf : Nat → Byte} (h : Prefix buf line) (c : Byte) :
    Prefix (Function.update buf line.length c) (line ++ [c]) := by
  intro j hj
  rw [List.length_append, List.length_singleton] at hj
  by_cases hlast : j = line.length
  · subst hlast
    simp
  · rw [Function.update_of_ne hlast, h j (by omega)]
    simp [List.getElem_append_left (show j < line.length by omega)]

theorem Prefix.dropLast {buf : Nat → Byte} (h : Prefix buf line) : Prefix buf line.dropLast := by
  intro j hj
  rw [List.length_dropLast] at hj
  rw [h j (by omega)]
  simp [List.getElem_dropLast]

theorem cast_toNat_eq {c d : Byte} {n : Int} (h : (d.toNat : Int) = n) :
    (c.toNat : Int) = n ↔ c = d := by
  rw [← h, Int.ofNat_inj]
  exact ⟨BitVec.eq_of_toNat_eq, congrArg _⟩

/-- One key. -/
theorem Typing.turn (h : Typing s line) (echoing : Bool) (hc : ¬ isEol c) :
    ∃ s' out, readlineTurn echoing s c.toNat = (.more s', out) ∧ Typing s' (typeChar line c) ∧
      (out = echo echoing 8 ∧ typeChar line c = line.dropLast ∧ line ≠ [] ∨
        out = echo echoing c ∧ typeChar line c = line ++ [c] ∧ c ≠ 8 ∨
        out = [] ∧ typeChar line c = line) := by
  have hi := h.i
  have hbyte : BitVec.ofInt 8 (c.toNat : Int) = c := by simp
  have hnneg : ¬ (c.toNat : Int) < 0 := by omega
  have herase : ((c.toNat : Int) = 8 ∨ (c.toNat : Int) = 0x7f) ↔ c = 8 ∨ c = 0x7f :=
    or_congr (cast_toNat_eq (by decide)) (cast_toNat_eq (by decide))
  have hempty : s.i > 0 ↔ line ≠ [] := by
    rw [hi, gt_iff_lt, List.length_pos_iff]
  rw [readlineTurn, if_neg hnneg, typeChar]
  by_cases hback : (c = 8 ∨ c = 0x7f) ∧ line ≠ []
  · rw [if_pos ⟨herase.mpr hback.1, hempty.mpr hback.2⟩, if_pos hback]
    refine ⟨_, _, rfl, ⟨?_, h.buf.dropLast, ?_, ?_⟩, Or.inl ⟨rfl, rfl, hback.2⟩⟩
    · rw [List.length_dropLast, ← hi]
    · rw [List.length_dropLast]
      have := h.short
      omega
    · exact fun d hd => h.printable d (List.dropLast_subset _ hd)
  · rw [if_neg (fun hcon => hback ⟨herase.mp hcon.1, hempty.mp hcon.2⟩), if_neg hback]
    by_cases hprint : 32 ≤ c.toNat ∧ line.length < buflen - 1
    · have hprint' : (c.toNat : Int) ≥ 32 ∧ s.i < buflen - 1 := by
        rw [hi]
        exact ⟨by omega, hprint.2⟩
      rw [if_pos hprint', if_pos hprint, hbyte]
      refine ⟨_, _, rfl, ⟨?_, ?_, ?_, ?_⟩, Or.inr (Or.inl ⟨rfl, rfl, ?_⟩)⟩
      · rw [List.length_append, ← hi]
        rfl
      · rw [hi]
        exact h.buf.snoc c
      · rw [List.length_append, List.length_singleton]
        have hlen := hprint.2
        omega
      · intro d hd
        rcases List.mem_append.mp hd with hd | hd
        · exact h.printable d hd
        · rw [List.mem_singleton.mp hd]
          exact hprint.1
      · rintro rfl
        exact absurd hprint.1 (by decide)
    · have hprint' : ¬ ((c.toNat : Int) ≥ 32 ∧ s.i < buflen - 1) := by
        rw [hi]
        omega
      have heol : ¬ ((c.toNat : Int) = 10 ∨ (c.toNat : Int) = 13) :=
        fun hcon => hc (hcon.imp (cast_toNat_eq (by decide)).mp (cast_toNat_eq (by decide)).mp)
      rw [if_neg hprint', if_neg hprint, if_neg heol]
      exact ⟨_, _, rfl, h, Or.inr (Or.inr ⟨rfl, rfl⟩)⟩

/-- The key that ends the line. -/
theorem Typing.eol (h : Typing s line) (echoing : Bool) (hc : isEol c) :
    ∃ buf, readlineTurn echoing s c.toNat = (.line buf, echo echoing 10) ∧ Prefix buf line ∧
      buf line.length = 0 := by
  have hvalue : (c.toNat : Int) = 10 ∨ (c.toNat : Int) = 13 :=
    hc.imp (cast_toNat_eq (by decide)).mpr (cast_toNat_eq (by decide)).mpr
  refine ⟨Function.update s.buf s.i 0, ?_, ?_, ?_⟩
  · rw [readlineTurn, if_neg (by omega), if_neg (by omega), if_neg (by omega), if_pos hvalue]
  · intro j hj
    rw [h.i, Function.update_of_ne (by omega)]
    exact h.buf j hj
  · rw [h.i, Function.update_self]

/-- The characters on the screen, after `screen`. -/
def screenAfter (screen : List Byte) (out : List Out) : List Byte :=
  out.foldl (fun screen o => if let .char c := o then shown screen c else screen) screen

/-- One key on the screen. -/
theorem screenAfter_turn {echoing : Bool} {out : List Out}
    (hout : out = echo echoing 8 ∧ typeChar line c = line.dropLast ∧ line ≠ [] ∨
      out = echo echoing c ∧ typeChar line c = line ++ [c] ∧ c ≠ 8 ∨
      out = [] ∧ typeChar line c = line) :
    screenAfter (if echoing then line else []) out = if echoing then typeChar line c else [] := by
  cases echoing with
  | false =>
      rcases hout with ⟨rfl, -, -⟩ | ⟨rfl, -, -⟩ | ⟨rfl, -⟩ <;> rfl
  | true =>
      rcases hout with ⟨rfl, hline, -⟩ | ⟨rfl, hline, hne⟩ | ⟨rfl, hline⟩
      · rw [hline]
        rfl
      · rw [hline]
        exact if_neg hne
      · rw [hline]
        rfl

theorem typing_start (buf : Nat → Byte) : Typing { buf := buf, i := 0 } [] :=
  ⟨rfl, fun j hj => absurd hj (by simp), by decide, fun c hc => by cases hc⟩

/-- The C string that starts at `p`. -/
structure IsString (buf : Nat → Byte) (p : Nat) (str : List Byte) : Prop where
  chars : ∀ j (hj : j < str.length), buf (p + j) = str.get ⟨j, hj⟩
  nul : buf (p + str.length) = 0
  nonzero : ∀ c ∈ str, c ≠ 0

variable {buf buf' : Nat → Byte} {p : Nat} {str : List Byte}

theorem IsString.tail (h : IsString buf p (c :: str)) : IsString buf (p + 1) str := by
  refine ⟨fun j hj => ?_, ?_, fun d hd => h.nonzero d (List.mem_cons_of_mem _ hd)⟩
  · have := h.chars (j + 1) (by simpa using hj)
    rw [show p + 1 + j = p + (j + 1) by omega, this]
    rfl
  · have := h.nul
    rw [List.length_cons] at this
    rw [show p + 1 + str.length = p + (str.length + 1) by omega, this]

theorem IsString.head (h : IsString buf p (c :: str)) : buf p = c := h.chars 0 (by simp)

theorem IsString.cString (h : IsString buf p str) {fuel : Nat} (hfuel : str.length < fuel) :
    cString buf fuel p = str := by
  induction str generalizing p fuel with
  | nil =>
      obtain ⟨fuel, rfl⟩ := Nat.exists_eq_add_of_lt hfuel
      exact if_pos h.nul
  | cons c str ih =>
      rw [List.length_cons] at hfuel
      obtain ⟨fuel, rfl⟩ := Nat.exists_eq_succ_of_ne_zero (show fuel ≠ 0 by omega)
      rw [Kern.cString, h.head, if_neg (h.nonzero c List.mem_cons_self), ih h.tail (by omega)]

/-- `readline` for every line that is typed, whatever the static buffer held
before: it returns what the keys leave of the line, and the screen shows
the same line. -/
theorem readline_edits (echoing : Bool) (buf : Nat → Byte) (keys : List Byte) (e : Byte)
    (rest : List Byte) (hkeys : ∀ c ∈ keys, ¬ isEol c) (he : isEol e) :
    ∃ buf' out, readline echoing { buf := buf, i := 0 }
        ((keys ++ e :: rest).map (fun c => (c.toNat : Int))) =
        some (.line buf', out, rest.map (fun c => (c.toNat : Int))) ∧
      IsString buf' 0 (keys.foldl typeChar []) ∧
      (keys.foldl typeChar []).length < buflen ∧
      screenAfter [] out = if echoing then keys.foldl typeChar [] ++ [10] else [] := by
  have hloop : ∀ (keys : List Byte) (s : Line) (line : List Byte), Typing s line →
      (∀ c ∈ keys, ¬ isEol c) → ∃ buf' out, readline echoing s
        ((keys ++ e :: rest).map (fun c => (c.toNat : Int))) =
        some (.line buf', out, rest.map (fun c => (c.toNat : Int))) ∧
      IsString buf' 0 (keys.foldl typeChar line) ∧ (keys.foldl typeChar line).length < buflen ∧
      screenAfter (if echoing then line else []) out =
        if echoing then keys.foldl typeChar line ++ [10] else [] := by
    intro keys
    induction keys with
    | nil =>
        intro s line h _
        obtain ⟨buf', hturn, hpre, hnul⟩ := h.eol echoing he
        refine ⟨buf', echo echoing 10, ?_, ⟨?_, ?_, ?_⟩, h.short, ?_⟩
        · rw [List.nil_append, List.map_cons, readline, hturn]
        · intro j hj
          rw [Nat.zero_add]
          exact hpre j hj
        · rw [Nat.zero_add]
          exact hnul
        · rintro d hd rfl
          exact absurd (h.printable 0 hd) (by decide)
        · cases echoing <;> rfl
    | cons c keys ih =>
        intro s line h hkeys
        obtain ⟨s', out, hturn, h', hout⟩ := h.turn echoing (hkeys c List.mem_cons_self)
        obtain ⟨buf', more, hrest, hstr, hlen, hscreen⟩ :=
          ih s' _ h' (fun d hd => hkeys d (List.mem_cons_of_mem _ hd))
        refine ⟨buf', out ++ more, ?_, hstr, hlen, ?_⟩
        · rw [List.cons_append, List.map_cons, readline, hturn]
          dsimp only
          rw [hrest]
          rfl
        · rw [screenAfter, List.foldl_append, ← screenAfter, ← screenAfter,
            screenAfter_turn hout]
          exact hscreen
  have hstart := hloop keys _ [] (typing_start buf) hkeys
  rwa [ite_self] at hstart

/-- A line with one character taken back, over an old buffer. -/
theorem readline_edits_once : ∃ buf' out,
    readline true { buf := fun _ => 0x78, i := 0 } [97, 98, 8, 99, 13] =
      some (.line buf', out, []) ∧ IsString buf' 0 [97, 99] ∧ screenAfter [] out = [97, 99, 10] := by
  obtain ⟨buf', out, hrun, hstr, -, hscreen⟩ := readline_edits true (fun _ => 0x78)
    [97, 98, 8, 99] 13 [] (by decide) (by decide)
  have hline : [97, 98, 8, 99].foldl typeChar [] = [97, 99] := by decide
  rw [hline] at hstr hscreen
  exact ⟨buf', out, hrun, hstr, hscreen⟩

/-! ## `runcmd` -/

/-- The words of a line. -/
def words (str : List Byte) : List (List Byte) :=
  (str.splitOnP isWhite).filter (fun w => !w.isEmpty)

theorem words_white (h : isWhite c = true) (str : List Byte) : words (c :: str) = words str := by
  rw [words, words, List.splitOnP_cons_eq_if_modifyHead, if_pos h]
  rfl

theorem words_dropWhile (str : List Byte) : words (str.dropWhile isWhite) = words str := by
  induction str with
  | nil => rfl
  | cons c str ih =>
      by_cases hc : isWhite c = true
      · rw [List.dropWhile_cons_of_pos hc, ih, words_white hc]
      · rw [List.dropWhile_cons_of_neg hc]

/-- A word ends where the string does or at a white character. -/
def AtEnd (str : List Byte) : Prop := ∀ d ∈ str.head?, isWhite d = true

theorem words_word {w rest : List Byte} (hw : w ≠ []) (hblack : ∀ x ∈ w, isWhite x = false)
    (hrest : AtEnd rest) : words (w ++ rest) = w :: words rest := by
  have hone : (!w.isEmpty) = true := by simp [hw]
  cases rest with
  | nil =>
      rw [List.append_nil, words, List.splitOnP_eq_singleton hblack, List.filter_cons, if_pos hone]
      rfl
  | cons d rest =>
      have hd : isWhite d = true := hrest d rfl
      rw [words_white hd, words, List.splitOnP_append_cons _ _ hd,
        List.splitOnP_eq_singleton hblack, List.singleton_append, List.filter_cons, if_pos hone]
      rfl

theorem IsString.drop {a b : List Byte} (h : IsString buf p (a ++ b)) :
    IsString buf (p + a.length) b := by
  induction a generalizing p with
  | nil => exact h
  | cons c a ih =>
      have htail := ih (p := p + 1) (IsString.tail h)
      rwa [List.length_cons, Nat.add_comm a.length, ← Nat.add_assoc]

/-- `gobble` over the white start of a string. -/
theorem gobble_spec {fuel : Nat} (h : IsString buf p str) (hfuel : str.length < fuel) :
    ∃ buf', gobble fuel buf p = some (buf', p + (str.takeWhile isWhite).length) ∧
      IsString buf' (p + (str.takeWhile isWhite).length) (str.dropWhile isWhite) ∧
      (∀ j < p, buf' j = buf j) ∧ (AtEnd str → buf' p = 0) := by
  induction str generalizing buf p fuel with
  | nil =>
      obtain ⟨fuel, rfl⟩ := Nat.exists_eq_succ_of_ne_zero (show fuel ≠ 0 by omega)
      refine ⟨buf, ?_, h, fun _ _ => rfl, fun _ => h.nul⟩
      exact if_neg (fun hc => hc.1 h.nul)
  | cons c str ih =>
      rw [List.length_cons] at hfuel
      obtain ⟨fuel, rfl⟩ := Nat.exists_eq_succ_of_ne_zero (show fuel ≠ 0 by omega)
      by_cases hc : isWhite c = true
      · have hstep : gobble (fuel + 1) buf p = gobble fuel (Function.update buf p 0) (p + 1) := by
          rw [gobble, h.head, if_pos ⟨h.nonzero c List.mem_cons_self, hc⟩]
        have hstr : IsString (Function.update buf p 0) (p + 1) str := by
          refine ⟨fun j hj => ?_, ?_, h.tail.nonzero⟩
          · rw [Function.update_of_ne (by omega)]
            exact h.tail.chars j hj
          · rw [Function.update_of_ne (by omega)]
            exact h.tail.nul
        obtain ⟨buf', hrun, hstr', hframe, -⟩ := ih hstr (show str.length < fuel by omega)
        rw [List.takeWhile_cons_of_pos hc, List.dropWhile_cons_of_pos hc, List.length_cons,
          Nat.add_comm (List.length _), ← Nat.add_assoc]
        refine ⟨buf', hstep.trans hrun, hstr', fun j hj => ?_, fun _ => ?_⟩
        · rw [hframe j (by omega), Function.update_of_ne (by omega)]
        · rw [hframe p (by omega), Function.update_self]
      · rw [List.takeWhile_cons_of_neg hc, List.dropWhile_cons_of_neg hc]
        refine ⟨buf, ?_, h, fun _ _ => rfl, fun hend => absurd (hend c rfl) hc⟩
        rw [gobble, h.head, if_neg (fun hcon => hc hcon.2)]
        rfl

theorem scanArg_spec {fuel : Nat} (h : IsString buf p str) (hfuel : str.length < fuel) :
    scanArg fuel buf p = some (p + (str.takeWhile (fun x => !isWhite x)).length) := by
  induction str generalizing p fuel with
  | nil =>
      obtain ⟨fuel, rfl⟩ := Nat.exists_eq_succ_of_ne_zero (show fuel ≠ 0 by omega)
      exact if_neg (fun hc => hc.1 h.nul)
  | cons c str ih =>
      rw [List.length_cons] at hfuel
      obtain ⟨fuel, rfl⟩ := Nat.exists_eq_succ_of_ne_zero (show fuel ≠ 0 by omega)
      by_cases hc : isWhite c = true
      · rw [scanArg, h.head, if_neg (fun hcon => hcon.2 hc),
          List.takeWhile_cons_of_neg (by simp [hc])]
        rfl
      · rw [scanArg, h.head, if_pos ⟨h.nonzero c List.mem_cons_self, hc⟩, ih h.tail (by omega),
          List.takeWhile_cons_of_pos (by simpa using hc), List.length_cons]
        exact congrArg some (by omega)

/-- The strings of `argv`, word by word. -/
def Args (buf : Nat → Byte) (n : Nat) (argv : List Nat) (ws : List (List Byte)) : Prop :=
  List.Forall₂ (fun q w => IsString buf q w ∧ w.length ≤ n) argv ws

theorem parseArgs_spec {fuel : Nat} {argv : List Nat} (h : IsString buf p str)
    (hfuel : str.length < fuel) (hargv : argv.length ≤ 15) :
    ∃ buf' res, parseArgs fuel buf p argv = some (buf', res) ∧ (∀ j < p, buf' j = buf j) ∧
      (AtEnd str → buf' p = 0) ∧
      (15 < argv.length + (words str).length ∧ res = none ∨
        argv.length + (words str).length ≤ 15 ∧ ∃ more, res = some (argv ++ more) ∧
          Args buf' str.length more (words str)) := by
  induction fuel generalizing buf p str argv with
  | zero => omega
  | succ fuel ih =>
      obtain ⟨buf₁, hgobble, hstr, hframe, hfirst⟩ := gobble_spec h hfuel
      have hsplit : (str.takeWhile isWhite).length + (str.dropWhile isWhite).length = str.length := by
        rw [← List.length_append, List.takeWhile_append_dropWhile]
      have hwords := words_dropWhile str
      generalize (str.takeWhile isWhite).length = k at hgobble hstr hsplit
      cases hdrop : str.dropWhile isWhite with
      | nil =>
          rw [hdrop] at hstr hwords
          refine ⟨buf₁, some argv, ?_, hframe, hfirst, Or.inr ?_⟩
          · rw [parseArgs, hgobble]
            exact if_pos hstr.nul
          · rw [← hwords]
            exact ⟨hargv, [], by rw [List.append_nil], .nil⟩
      | cons c t =>
          rw [hdrop] at hstr hwords hsplit
          have hblack : isWhite c = false := by
            have := List.head?_dropWhile_not isWhite str
            rw [hdrop] at this
            simpa using this
          have hc : buf₁ (p + k) ≠ 0 := by
            rw [hstr.head]
            exact hstr.nonzero c List.mem_cons_self
          have hw : (c :: t).takeWhile (fun x => !isWhite x) ≠ [] := by
            rw [List.takeWhile_cons_of_pos (by rw [hblack]; rfl)]
            exact List.cons_ne_nil _ _
          have hparts := List.takeWhile_append_dropWhile (p := fun x => !isWhite x) (l := c :: t)
          have hall : ∀ x ∈ (c :: t).takeWhile (fun x => !isWhite x), isWhite x = false := by
            intro x hx
            simpa using List.mem_takeWhile_imp hx
          have hend : AtEnd ((c :: t).dropWhile (fun x => !isWhite x)) := by
            intro d hd
            have := List.head?_dropWhile_not (fun x => !isWhite x) (c :: t)
            rw [Option.mem_def.mp hd] at this
            simpa using this
          have hscan := scanArg_spec hstr (show _ < fuel + 1 by omega)
          generalize (c :: t).takeWhile (fun x => !isWhite x) = w at hw hparts hall hscan
          generalize (c :: t).dropWhile (fun x => !isWhite x) = rest at hparts hend
          have hlen : w.length + rest.length = (c :: t).length := by
            rw [← List.length_append, hparts]
          have hpos : 0 < w.length := List.length_pos_iff.mpr hw
          have hsplitWords : words str = w :: words rest := by
            rw [← hwords, ← hparts, words_word hw hall hend]
          rw [← hparts] at hstr
          by_cases hmany : argv.length = maxargs - 1
          · have h15 : argv.length = 15 := hmany
            refine ⟨buf₁, none, ?_, hframe, hfirst, Or.inl ⟨?_, rfl⟩⟩
            · rw [parseArgs, hgobble]
              exact (if_neg hc).trans (if_pos hmany)
            · rw [hsplitWords, List.length_cons]
              omega
          · have h15 : argv.length ≠ 15 := hmany
            obtain ⟨buf₂, res, hrun, hframe₂, hfirst₂, hres⟩ :=
              ih hstr.drop (by omega)
                (show (argv ++ [p + k]).length ≤ 15 by
                  rw [List.length_append, List.length_singleton]
                  omega)
            refine ⟨buf₂, res, ?_, ?_, ?_, ?_⟩
            · rw [parseArgs, hgobble]
              refine (if_neg hc).trans ((if_neg hmany).trans ?_)
              rw [hscan]
              exact hrun
            · intro j hj
              rw [hframe₂ j (by omega), hframe j hj]
            · intro hstart
              rw [hframe₂ p (by omega)]
              exact hfirst hstart
            · have harg : IsString buf₂ (p + k) w := by
                refine ⟨fun j hj => ?_, hfirst₂ hend,
                  fun d hd => hstr.nonzero d (List.mem_append_left _ hd)⟩
                rw [hframe₂ _ (by omega), hstr.chars j (by rw [List.length_append]; omega)]
                simp [List.getElem_append_left hj]
              rw [hsplitWords, List.length_cons]
              rw [List.length_append, List.length_singleton] at hres
              rcases hres with ⟨hgt, hnone⟩ | ⟨hle, more, hsome, hargs⟩
              · exact Or.inl ⟨by omega, hnone⟩
              · refine Or.inr ⟨by omega, (p + k) :: more, ?_, ?_⟩
                · rw [hsome, List.append_assoc]
                  rfl
                · refine .cons ⟨harg, by omega⟩ ?_
                  exact hargs.imp (fun _ _ hq => ⟨hq.1, by have := hq.2; omega⟩)

/-- `strcmp` of strings without NUL. -/
theorem strcmp_eq_zero {as bs : List Byte} (ha : ∀ c ∈ as, c ≠ 0) (hb : ∀ c ∈ bs, c ≠ 0) :
    strcmp as bs = 0 ↔ as = bs := by
  induction as generalizing bs with
  | nil =>
      cases bs with
      | nil => simp [strcmp]
      | cons d ds =>
          have hd : d.toNat ≠ 0 := fun hz => hb d List.mem_cons_self (BitVec.eq_of_toNat_eq hz)
          simp only [strcmp]
          refine ⟨fun h => absurd ?_ hd, fun h => by cases h⟩
          omega
  | cons c cs ih =>
      have hc : c.toNat ≠ 0 := fun hz => ha c List.mem_cons_self (BitVec.eq_of_toNat_eq hz)
      cases bs with
      | nil =>
          simp only [strcmp]
          refine ⟨fun h => absurd ?_ hc, fun h => by cases h⟩
          omega
      | cons d ds =>
          rw [strcmp]
          by_cases heq : c = d
          · rw [if_pos heq, ih (fun x hx => ha x (List.mem_cons_of_mem _ hx))
              (fun x hx => hb x (List.mem_cons_of_mem _ hx)), heq]
            simp
          · rw [if_neg heq]
            refine ⟨fun h => absurd (BitVec.eq_of_toNat_eq (by omega)) heq, fun h => ?_⟩
            cases h
            exact absurd rfl heq

/-- What a list of words does: the first is the name of a command. -/
def wordsRan : List (List Byte) → Ran
  | [] => .nothing
  | name :: args => .found name args (commands.find? (fun c => bytes c.name = name))

/-- What a line does. -/
def lineRan (str : List Byte) : Ran :=
  if 15 < (words str).length then .tooMany else wordsRan (words str)

theorem invoke_eq {ws : List (List Byte)} (h : ∀ w ∈ ws, ∀ c ∈ w, c ≠ 0) :
    invoke ws = wordsRan ws := by
  cases ws with
  | nil => rfl
  | cons name args =>
      have hnames : ∀ c ∈ commands, ∀ d ∈ bytes c.name, d ≠ 0 := by decide
      have hsame : ∀ cs : List Command, (∀ c ∈ cs, c ∈ commands) →
          cs.find? (fun c => strcmp name (bytes c.name) = 0) =
            cs.find? (fun c => bytes c.name = name) := by
        intro cs hcs
        induction cs with
        | nil => rfl
        | cons c cs ih =>
            have hone : decide (strcmp name (bytes c.name) = 0) = decide (bytes c.name = name) := by
              rw [decide_eq_decide, strcmp_eq_zero (h name List.mem_cons_self)
                (hnames c (hcs c List.mem_cons_self))]
              exact eq_comm
            rw [List.find?_cons, List.find?_cons, hone,
              ih (fun x hx => hcs x (List.mem_cons_of_mem _ hx))]
      rw [invoke, wordsRan, hsame commands (fun _ hc => hc)]

theorem Args.map_cString {n : Nat} {argv : List Nat} {ws : List (List Byte)}
    (h : Args buf n argv ws) (hn : n < buflen) : argv.map (Kern.cString buf buflen) = ws := by
  induction h with
  | nil => rfl
  | cons hq _ ih => rw [List.map_cons, ih, hq.1.cString (by omega)]

theorem Args.nonzero {n : Nat} {argv : List Nat} {ws : List (List Byte)} (h : Args buf n argv ws) :
    ∀ w ∈ ws, ∀ c ∈ w, c ≠ 0 := by
  induction h with
  | nil => exact fun w hw => absurd hw List.not_mem_nil
  | cons hq _ ih =>
      intro w hw
      rcases List.mem_cons.mp hw with rfl | hw
      · exact hq.1.nonzero
      · exact ih w hw

/-- `runcmd` on any line. -/
theorem runcmd_spec (h : IsString buf 0 str) (hlen : str.length < buflen) :
    ∃ buf', runcmd buf = some (buf', lineRan str) := by
  obtain ⟨buf', res, hparse, -, -, hres⟩ := parseArgs_spec h hlen (show [].length ≤ 15 by decide)
  refine ⟨buf', ?_⟩
  rw [runcmd, hparse, lineRan]
  rw [List.length_nil, Nat.zero_add] at hres
  rcases hres with ⟨hgt, rfl⟩ | ⟨hle, more, rfl, hargs⟩
  · rw [if_pos hgt]
    rfl
  · rw [if_neg (by omega)]
    have hmap := hargs.map_cString hlen
    have hgoal : some (buf', invoke (([] ++ more).map (Kern.cString buf' buflen))) =
        some (buf', wordsRan (words str)) := by
      rw [List.nil_append, hmap, invoke_eq hargs.nonzero]
    exact hgoal

/-! ## The monitor -/

/-- The lines that the characters make up, and the one that is being typed. -/
def typeKey (s : List (List Byte) × List Byte) (c : Byte) : List (List Byte) × List Byte :=
  if isEol c then (s.1 ++ [s.2], []) else (s.1, typeChar s.2 c)

/-- The monitor after the characters `served`. -/
structure Serving (served : List Byte) (m : Monitor) : Prop where
  ran : m.ran = (served.foldl typeKey ([], [])).1.map lineRan
  line : Typing m.line (served.foldl typeKey ([], [])).2

theorem Serving.poll {served : List Byte} {m : Monitor} (h : Serving served m)
    (serialExists : Bool) (serial kbd : List Byte) :
    ∃ m', monitorPoll serialExists m serial kbd = some m' ∧
      m'.cons = (consStep serialExists (served, m.cons) (.getc serial kbd)).2 ∧
      Serving (consStep serialExists (served, m.cons) (.getc serial kbd)).1 m' := by
  have hpoll : ∀ p : Byte × Cons, consGetc serialExists m.cons serial kbd = p →
      ∃ m', monitorPoll serialExists m serial kbd = some m' ∧ m'.cons = p.2 ∧
        Serving (if p.1 = 0 then served else served ++ [p.1]) m' := by
    rintro ⟨c, cons⟩ hget
    rw [monitorPoll, hget]
    dsimp only
    by_cases hc : c = 0
    · rw [if_pos hc, if_pos hc]
      exact ⟨_, rfl, rfl, h.ran, h.line⟩
    · rw [if_neg hc, if_neg hc]
      by_cases he : isEol c
      · obtain ⟨buf, hturn, hpre, hnul⟩ := h.line.eol true he
        have hstr : IsString buf 0 (served.foldl typeKey ([], [])).2 := by
          refine ⟨fun j hj => ?_, ?_, ?_⟩
          · rw [Nat.zero_add]
            exact hpre j hj
          · rw [Nat.zero_add]
            exact hnul
          · rintro d hd rfl
            exact absurd (h.line.printable 0 hd) (by decide)
        obtain ⟨buf', hrun⟩ := runcmd_spec hstr h.line.short
        have hkey : (served ++ [c]).foldl typeKey ([], []) =
            ((served.foldl typeKey ([], [])).1 ++ [(served.foldl typeKey ([], [])).2], []) := by
          rw [List.foldl_append]
          exact if_pos he
        refine ⟨{
          cons := cons
          line := { buf := buf', i := 0 }
          ran := m.ran ++ [lineRan (served.foldl typeKey ([], [])).2]
          out := m.out ++ echo true 10 ++ (lineRan (served.foldl typeKey ([], [])).2).out ++
            [.text "K> "] }, ?_, rfl, ?_, ?_⟩
        · rw [hturn]
          dsimp only
          rw [hrun]
          rfl
        · rw [hkey, List.map_append, ← h.ran]
          rfl
        · rw [hkey]
          exact typing_start buf'
      · obtain ⟨line, out, hturn, hline, -⟩ := h.line.turn true he
        have hkey : (served ++ [c]).foldl typeKey ([], []) =
            ((served.foldl typeKey ([], [])).1, typeChar (served.foldl typeKey ([], [])).2 c) := by
          rw [List.foldl_append]
          exact if_neg he
        refine ⟨{ m with cons := cons, line := line, out := m.out ++ out }, ?_, rfl, ?_, ?_⟩
        · rw [hturn]
        · rw [hkey]
          exact h.ran
        · rw [hkey]
          exact hline
  obtain ⟨m', hrun, hcons, hserving⟩ := hpoll _ rfl
  exact ⟨m', hrun, hcons, hserving⟩

/-- The polls as events of the console. -/
def pollEvents (polls : List (List Byte × List Byte)) : List ConsEvent :=
  polls.map (fun p => .getc p.1 p.2)

theorem serving_of_polls (serialExists : Bool) (buf : Nat → Byte)
    (polls : List (List Byte × List Byte)) :
    ∃ m, monitorRun serialExists (monitorStart consBoot buf) polls = some m ∧
      m.cons = ((pollEvents polls).foldl (consStep serialExists) ([], consBoot)).2 ∧
      Serving ((pollEvents polls).foldl (consStep serialExists) ([], consBoot)).1 m := by
  induction polls using List.reverseRecOn with
  | nil => exact ⟨_, rfl, rfl, rfl, typing_start buf⟩
  | append_singleton polls poll ih =>
      obtain ⟨m, hrun, hcons, hserving⟩ := ih
      obtain ⟨m', hpoll, hcons', hserving'⟩ := hserving.poll serialExists poll.1 poll.2
      rw [hcons] at hcons' hserving'
      refine ⟨m', ?_, ?_, ?_⟩
      · rw [monitorRun, List.foldlM_append, ← monitorRun, hrun]
        show (monitorPoll serialExists m poll.1 poll.2).bind some = some m'
        rw [hpoll]
        rfl
      · rw [pollEvents, List.map_append, List.foldl_append, ← pollEvents]
        exact hcons'
      · rw [pollEvents, List.map_append, List.foldl_append, ← pollEvents]
        exact hserving'

/-- Polls of quiet devices read what still waits. -/
theorem Received.quiet {s : List Byte × Cons} (h : Received all s.1 s.2) (serialExists : Bool)
    (n : Nat) :
    ((pollEvents (List.replicate n ([], []))).foldl (consStep serialExists) s).1 ++
        waiting ((pollEvents (List.replicate n ([], []))).foldl (consStep serialExists) s).2 =
        s.1 ++ waiting s.2 ∧
      (waiting ((pollEvents (List.replicate n ([], []))).foldl (consStep serialExists) s).2).length =
        (waiting s.2).length - n := by
  induction n generalizing s with
  | zero => exact ⟨rfl, rfl⟩
  | succ n ih =>
      have hquiet : consGetc true s.2 [] [] = consGetc serialExists s.2 [] [] := by
        cases serialExists <;> rfl
      obtain ⟨hnext, hsame, hlen⟩ := h.take hquiet
      obtain ⟨hall, hleft⟩ := ih (s := consStep serialExists s (.getc [] [])) hnext
      rw [List.replicate_succ, pollEvents, List.map_cons, List.foldl_cons, ← pollEvents]
      refine ⟨hall.trans hsame, hleft.trans ?_⟩
      show (waiting (consGetc serialExists s.2 [] []).2).length - n = _
      rw [hlen]
      omega

/-- The monitor runs what is typed: over any polls of the devices it never
stops, and the lines it has run are those of the characters that the
console has read, in order. If fewer than 512 more were sent than read, it
only takes 511 more polls to have run all that was typed. -/
theorem monitor_runs_what_is_typed (serialExists : Bool) (buf : Nat → Byte)
    (polls : List (List Byte × List Byte)) :
    let sent := typed (polls.flatMap (fun p => polled serialExists p.1 p.2))
    let read := ((pollEvents polls).foldl (consStep serialExists) ([], consBoot)).1
    ∃ m m', monitorRun serialExists (monitorStart consBoot buf) polls = some m ∧
      m.ran = (read.foldl typeKey ([], [])).1.map lineRan ∧
      monitorRun serialExists (monitorStart consBoot buf)
        (polls ++ List.replicate 511 ([], [])) = some m' ∧
      (sent.length < read.length + 512 →
        m'.ran = (sent.foldl typeKey ([], [])).1.map lineRan) := by
  obtain ⟨m, hrun, -, hserving⟩ := serving_of_polls serialExists buf polls
  obtain ⟨m', hrun', -, hserving'⟩ :=
    serving_of_polls serialExists buf (polls ++ List.replicate 511 ([], []))
  refine ⟨m, m', hrun, hserving.ran, hrun', fun hfew => ?_⟩
  have hreceived := received_of_run serialExists (pollEvents polls)
  have hsent : (pollEvents polls).flatMap (·.brings serialExists) =
      polls.flatMap (fun p => polled serialExists p.1 p.2) := by
    rw [pollEvents, List.flatMap_map]
    rfl
  rw [hsent] at hreceived
  have hall := hreceived.complete hfew
  obtain ⟨hquiet, hleft⟩ := hreceived.quiet serialExists 511
  have hnone : (waiting ((pollEvents (List.replicate 511 ([], []))).foldl (consStep serialExists)
      ((pollEvents polls).foldl (consStep serialExists) ([], consBoot))).2) = [] := by
    have hfit := Ring.waiting_lt hreceived.range
    rw [← List.length_eq_zero_iff, hleft, waiting, Ring.length_contents]
    have hsize : consbufsize = 512 := rfl
    omega
  rw [hnone, List.append_nil, hall] at hquiet
  rw [hserving'.ran, pollEvents, List.map_append, List.foldl_append, ← pollEvents, ← pollEvents,
    hquiet]

end SistemasOperativos.Kern
