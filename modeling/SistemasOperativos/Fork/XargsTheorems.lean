/-
SistemasOperativos.Fork.XargsTheorems — every line of the input reaches
the command once, in order, `NARGS` at a time, as long as no child moves
the offset of `stdin` back.

A child whose `execvp` fails does so with what is left in the buffer of
`stdin`, and its parent then reads those bytes twice. They are none where
the lines of the batch end with the file or with a buffer, or `stdin`
cannot seek.

What the loop keeps, `Reparto`, is about the bytes `leido` that `getline`
has returned so far. The batches and the gathered lines make up their
lines. With the bytes still to be read they end as the file does, and are
at least as many; only where they are as many was no offset moved, and
then they are the file.
-/
import SistemasOperativos.Fork.Xargs

namespace SistemasOperativos.Fork.Xargs

/-! ## The lines of the input -/

/-- The pieces between the newlines; what follows the last newline is a
line only where there is something. -/
def lineas (entrada : Cadena) : List Cadena :=
  let piezas := entrada.splitOn saltoDeLinea
  if piezas.getLast? = some [] then piezas.dropLast else piezas

@[simp] theorem lineas_nil : lineas [] = [] := by
  simp [lineas]

theorem lineas_append_cons {a : Cadena} (ha : saltoDeLinea ∉ a) (resto : Cadena) :
    lineas (a ++ saltoDeLinea :: resto) = a :: lineas resto := by
  have hne : resto.splitOn saltoDeLinea ≠ [] := List.splitOn_ne_nil _ _
  simp only [lineas, List.splitOn_append_cons_self_of_not_mem ha]
  rw [List.getLast?_cons_of_ne_nil hne, List.dropLast_cons_of_ne_nil hne]
  split
  · rfl
  · rfl

/-- Lines with their newlines. -/
def texto (ls : List Cadena) : Cadena := (ls.map (· ++ [saltoDeLinea])).flatten

theorem texto_cons (l : Cadena) (ls : List Cadena) :
    texto (l :: ls) = l ++ saltoDeLinea :: texto ls := by
  simp [texto]

theorem lineas_texto_append {ls : List Cadena} (hls : ∀ l ∈ ls, saltoDeLinea ∉ l) (resto : Cadena) :
    lineas (texto ls ++ resto) = ls ++ lineas resto := by
  induction ls with
  | nil => rfl
  | cons l ls ih =>
    have htail : lineas (texto ls ++ resto) = ls ++ lineas resto :=
      ih (fun l' hl' => hls l' (List.mem_cons_of_mem l hl'))
    rw [texto_cons, List.append_assoc, List.cons_append,
      lineas_append_cons (hls l List.mem_cons_self), htail, List.cons_append]

/-! ## `getline` -/

/-- No child has moved the offset: byte `p` of the file is the next one of
the stream, and the buffer holds what is left of the block that byte
`p - 1` is in. -/
structure Sincro (tam p : Nat) (s : Stdin) : Prop where
  offset : s.offset = p + s.buffer.length
  borde : s.offset = s.archivo.length ∨ tam ∣ s.offset
  bloque : s.buffer = [] ∨ ∃ q, q * tam < p ∧ s.offset ≤ q * tam + tam

/-- The buffer is empty where a block or the file ends. -/
theorem Sincro.buffer_nil_iff {tam p : Nat} {s : Stdin} (h : Sincro tam p s)
    (hle : s.offset ≤ s.archivo.length) : s.buffer = [] ↔ p = s.archivo.length ∨ tam ∣ p := by
  obtain ⟨hoffset, hborde, hbloque⟩ := h
  constructor
  · intro hnil
    rw [hnil, List.length_nil, Nat.add_zero] at hoffset
    rwa [hoffset] at hborde
  · rintro (hp | ⟨c, hp⟩)
    · rw [← List.length_eq_zero_iff]
      omega
    · rcases hbloque with hnil | ⟨q, hq, hq'⟩
      · exact hnil
      · -- there is no multiple of `tam` between `q * tam` and the next one
        have hlt : q * tam < c * tam := by
          rwa [Nat.mul_comm c, ← hp]
        have hstep : (q + 1) * tam ≤ c * tam :=
          Nat.mul_le_mul_right _ (Nat.lt_of_mul_lt_mul_right hlt)
        rw [Nat.succ_mul] at hstep
        rw [Nat.mul_comm c, ← hp] at hstep
        rw [← List.length_eq_zero_iff]
        omega

/-- The end of the file has been seen where nothing is left. -/
def Stdin.Agotado (s : Stdin) : Prop := s.eof = true → s.resto = []

/-- What `getc` takes from it. -/
structure Byte (tam : Nat) (s s' : Stdin) (c : UInt8) : Prop where
  archivo : s'.archivo = s.archivo
  offset_le : s.offset ≤ s.archivo.length → s'.offset ≤ s'.archivo.length
  agotado : s'.Agotado
  resto : s.resto = c :: s'.resto
  sincro : ∀ p, Sincro tam p s → Sincro tam (p + 1) s'

/-- `leido` is what `getline` has returned, and the lines `ls` are in it.
With what is left it ends as the file does; and it is the file, if it is no
longer. -/
structure Lectura (tam : Nat) (entrada leido : Cadena) (ls : List Cadena) (s : Stdin) : Prop where
  archivo : s.archivo = entrada
  offset_le : s.offset ≤ s.archivo.length
  agotado : s.Agotado
  sinNul : nul ∉ s.buffer
  partes : lineas leido = ls
  forma : (∀ l ∈ ls, saltoDeLinea ∉ l) ∧ leido = texto ls ∨
    s.eof = true ∧ leido.length < (texto ls).length
  largo : entrada.length ≤ (leido ++ s.resto).length
  ultimo : (leido ++ s.resto).getLast? = entrada.getLast?
  fiel : (leido ++ s.resto).length = entrada.length →
    leido ++ s.resto = entrada ∧ Sincro tam leido.length s

variable {tam : Nat} {entrada leido linea : Cadena} {ls : List Cadena} {s s' : Stdin}

theorem Lectura.start (tam : Nat) (entrada : Cadena) :
    Lectura tam entrada [] [] (.abrir entrada) where
  archivo := rfl
  offset_le := Nat.zero_le _
  agotado := fun hc => absurd hc Bool.false_ne_true
  sinNul := List.not_mem_nil
  partes := lineas_nil
  forma := Or.inl ⟨by simp, rfl⟩
  largo := by simp [Stdin.abrir, Stdin.resto]
  ultimo := by simp [Stdin.abrir, Stdin.resto]
  fiel := by
    intro _
    exact ⟨by simp [Stdin.abrir, Stdin.resto], rfl, Or.inr (Nat.dvd_zero _), Or.inl rfl⟩

/-- The lines that have been read are the first ones of the file, and end
at byte `leido.length` of it. -/
def finDeLinea (entrada : Cadena) (m : Nat) : Nat :=
  min entrada.length (texto ((lineas entrada).take m)).length

theorem Lectura.termina (h : Lectura tam entrada leido ls s)
    (hlen : (leido ++ s.resto).length = entrada.length) :
    finDeLinea entrada ls.length = leido.length ∧ (lineas entrada).take ls.length = ls := by
  have heq := (h.fiel hlen).1
  rcases h.forma with ⟨hls, htexto⟩ | ⟨heof, hlarga⟩
  · have htake : (lineas entrada).take ls.length = ls := by
      rw [← heq, htexto, lineas_texto_append hls, List.take_left']
      rfl
    refine ⟨?_, htake⟩
    rw [finDeLinea, htake, ← htexto, ← heq, List.length_append]
    omega
  · have hleido : leido = entrada := by
      rw [← heq, h.agotado heof, List.append_nil]
    have htake : (lineas entrada).take ls.length = ls := by
      rw [← hleido, h.partes, List.take_length]
    refine ⟨?_, htake⟩
    rw [finDeLinea, htake, ← hleido]
    omega

/-- A child that calls `exit`: it gives the whole buffer back, or cannot. -/
theorem Lectura.exit (h : Lectura tam entrada leido ls s) (seekable : Bool) :
    Lectura tam entrada leido ls (s.exit seekable) ∧
      ((leido ++ (s.exit seekable).resto).length = entrada.length ↔
        (leido ++ s.resto).length = entrada.length ∧ (seekable = true → s.buffer = [])) := by
  by_cases hback : (seekable = true ∧ s.buffer.length ≤ s.offset) ∧ s.buffer ≠ []
  · -- the offset moves
    obtain ⟨⟨hseek, hroom⟩, hne⟩ := hback
    have hpos : 0 < s.buffer.length := List.length_pos_of_ne_nil hne
    have hexit : s.exit seekable = { s with offset := s.offset - s.buffer.length } := by
      rw [Stdin.exit, if_pos ⟨hseek, hroom⟩]
    have hoffset := h.offset_le
    have heof : s.eof ≠ true := by
      intro heof
      have hnil := h.agotado heof
      rw [Stdin.resto, List.append_eq_nil_iff] at hnil
      exact hne hnil.1
    have hlargo : entrada.length < (leido ++ (s.exit seekable).resto).length := by
      have hold := h.largo
      rw [hexit]
      simp only [Stdin.resto, List.length_append, List.length_drop] at hold ⊢
      omega
    have hultimo : (leido ++ (s.exit seekable).resto).getLast? = entrada.getLast? := by
      rw [hexit, Stdin.resto, ← List.append_assoc, List.getLast?_append, ← h.archivo]
      simp only [List.getLast?_drop]
      rw [if_neg (by omega)]
      cases hlast : s.archivo.getLast? with
      | none =>
        rw [List.getLast?_eq_none_iff] at hlast
        rw [hlast, List.length_nil] at hoffset
        omega
      | some c => rfl
    refine ⟨?_, ?_⟩
    · rw [hexit] at hlargo hultimo ⊢
      refine ⟨h.archivo, Nat.le_trans (Nat.sub_le ..) hoffset, fun hc => absurd hc heof, h.sinNul,
        h.partes, h.forma, Nat.le_of_lt hlargo, hultimo, fun hlen => ?_⟩
      omega
    · constructor
      · intro hlen
        omega
      · exact fun hc => absurd (hc.2 hseek) hne
  · -- nothing changes
    have hexit : s.exit seekable = s := by
      unfold Stdin.exit
      split
      · rename_i hcond
        have hnil : s.buffer.length = 0 := by
          rw [List.length_eq_zero_iff]
          by_contra hne
          exact hback ⟨hcond, hne⟩
        rw [hnil, Nat.sub_zero]
      · rfl
    rw [hexit]
    refine ⟨h, fun hlen => ⟨hlen, fun hseek => ?_⟩, fun hc => hc.1⟩
    by_contra hne
    have hsincro := (h.fiel hlen).2.offset
    exact hback ⟨⟨hseek, by omega⟩, hne⟩

/-! ## One batch -/

/-- `stdin` after the child that was given these lines. -/
def trasLote (e : Entorno) (lotes : List (List Cadena)) (lote : List Cadena) (s : Stdin) : Stdin :=
  if e.falla lotes.length (e.comando :: lote) then s.exit e.seekable else s

variable {e : Entorno} {lotes : List (List Cadena)} {pendientes : List Cadena}

/-- Line `m` ends where a buffer or the file does. -/
def Borde (tam : Nat) (entrada : Cadena) (m : Nat) : Prop :=
  finDeLinea entrada m = entrada.length ∨ tam ∣ finDeLinea entrada m

instance (tam : Nat) (entrada : Cadena) (m : Nat) : Decidable (Borde tam entrada m) :=
  inferInstanceAs (Decidable (_ ∨ _))

/-- The `k`-th group of `nargs` lines. -/
def grupo (nargs : Nat) (entrada : Cadena) (k : Nat) : List Cadena :=
  ((lineas entrada).drop (k * nargs)).take nargs

/-- Every `execvp` that fails leaves nothing in the buffer. -/
def Inofensivas (e : Entorno) (entrada : Cadena) : Prop :=
  ∀ k, (k + 1) * e.nargs ≤ (lineas entrada).length →
    e.falla k (e.comando :: grupo e.nargs entrada k) = true →
      Borde e.tam entrada ((k + 1) * e.nargs)

/-- No offset is moved. -/
def SinRetroceso (e : Entorno) (entrada : Cadena) : Prop :=
  e.seekable = false ∨ Inofensivas e entrada

/-- What the loop keeps: the batches are full, the gathered lines are
fewer than a batch, nothing is lost, and as long as no offset has moved
every `execvp` that failed left nothing in the buffer. -/
structure Reparto (e : Entorno) (entrada leido : Cadena) (lotes : List (List Cadena))
    (pendientes : List Cadena) (s : Stdin) : Prop where
  llenos : ∀ lote ∈ lotes, lote.length = e.nargs
  pocas : pendientes.length < e.nargs
  lectura : Lectura e.tam entrada leido (lotes.flatten ++ pendientes) s
  inofensivos : (leido ++ s.resto).length = entrada.length → e.seekable = true →
    ∀ i lote, lotes[i]? = some lote → e.falla i (e.comando :: lote) = true →
      Borde e.tam entrada ((i + 1) * e.nargs)

theorem flatten_length {n : Nat} (h : ∀ lote ∈ lotes, lote.length = n) :
    lotes.flatten.length = lotes.length * n := by
  induction lotes with
  | nil => simp
  | cons lote lotes ih =>
    have htail := ih (fun l hl => h l (List.mem_cons_of_mem lote hl))
    rw [List.flatten_cons, List.length_append, htail, h lote List.mem_cons_self, List.length_cons,
      Nat.succ_mul, Nat.add_comm]

/-- A full batch is the group of lines at its place. -/
theorem flatten_grupo {n i : Nat} {lote : List Cadena} (h : ∀ lote ∈ lotes, lote.length = n)
    (hi : lotes[i]? = some lote) (resto : List Cadena) :
    ((lotes.flatten ++ resto).drop (i * n)).take n = lote := by
  induction lotes generalizing i with
  | nil => simp at hi
  | cons l lotes ih =>
    have hl : l.length = n := h l List.mem_cons_self
    cases i with
    | zero =>
      rw [List.getElem?_cons_zero, Option.some.injEq] at hi
      rw [Nat.zero_mul, List.drop_zero, List.flatten_cons, List.append_assoc, ← hi, ← hl,
        List.take_left']
      rfl
    | succ i =>
      rw [List.getElem?_cons_succ] at hi
      have htail := ih (fun l' hl' => h l' (List.mem_cons_of_mem l hl')) hi
      rw [List.flatten_cons, List.append_assoc, Nat.succ_mul, Nat.add_comm, ← List.drop_drop,
        List.drop_left' hl]
      exact htail

/-- A batch of the longer list is one of the old ones, or the new one. -/
theorem getElem?_concat_cases {i : Nat} {lote l : List Cadena}
    (h : (lotes ++ [lote])[i]? = some l) : lotes[i]? = some l ∨ i = lotes.length ∧ l = lote := by
  rcases Nat.lt_or_ge i lotes.length with hlt | hge
  · rw [List.getElem?_append_left hlt] at h
    exact Or.inl h
  · have hi := (List.getElem?_eq_some_iff.1 h).1
    rw [List.length_append, List.length_singleton] at hi
    obtain rfl : i = lotes.length := by omega
    rw [List.getElem?_append_right (Nat.le_refl _), Nat.sub_self, List.getElem?_cons_zero,
      Option.some.injEq] at h
    exact Or.inr ⟨rfl, h.symm⟩

/-- Where no offset was moved, the buffer is empty after the last line
read if that ends with a block or the file. -/
theorem Lectura.buffer_nil_iff (h : Lectura tam entrada leido ls s)
    (hfiel : (leido ++ s.resto).length = entrada.length) :
    s.buffer = [] ↔ Borde tam entrada ls.length := by
  have hle : s.offset ≤ s.archivo.length := h.offset_le
  rw [(h.fiel hfiel).2.buffer_nil_iff hle, Borde, (h.termina hfiel).1, h.archivo]

/-- The last batch read is the group of lines of the file at its place. -/
theorem Lectura.grupo_lote {lote : List Cadena}
    (hllenos : ∀ l ∈ lotes ++ [lote], l.length = e.nargs)
    (h : Lectura tam entrada leido (lotes.flatten ++ lote) s)
    (hfiel : (leido ++ s.resto).length = entrada.length) :
    (lotes.length + 1) * e.nargs ≤ (lineas entrada).length ∧
      grupo e.nargs entrada lotes.length = lote := by
  have htake := (h.termina hfiel).2
  have hflat : (lotes ++ [lote]).flatten = lotes.flatten ++ lote := by
    simp
  have hmas : (lotes.flatten ++ lote).length = (lotes.length + 1) * e.nargs := by
    rw [← hflat, flatten_length hllenos, List.length_append, List.length_singleton]
  constructor
  · have hcount := congrArg List.length htake
    rw [List.length_take, hmas] at hcount
    omega
  · have hlineas : lineas entrada =
        (lotes ++ [lote]).flatten ++ (lineas entrada).drop (lotes.flatten ++ lote).length := by
      rw [hflat]
      conv => lhs; rw [← List.take_append_drop (lotes.flatten ++ lote).length (lineas entrada), htake]
    have hget : (lotes ++ [lote])[lotes.length]? = some lote := by
      simp
    rw [grupo, hlineas, flatten_grupo hllenos hget]

/-- The batch `lote` is complete, and its child runs. -/
theorem Lectura.lote {lote : List Cadena} (hllenos : ∀ lote ∈ lotes, lote.length = e.nargs)
    (hlen : lote.length = e.nargs) (hpos : 1 ≤ e.nargs)
    (h : Lectura e.tam entrada leido (lotes.flatten ++ lote) s)
    (hin : (leido ++ s.resto).length = entrada.length → e.seekable = true →
      ∀ i lote, lotes[i]? = some lote → e.falla i (e.comando :: lote) = true →
        Borde e.tam entrada ((i + 1) * e.nargs)) :
    Reparto e entrada leido (lotes ++ [lote]) [] (trasLote e lotes lote s) ∧
      (SinRetroceso e entrada → (leido ++ s.resto).length = entrada.length →
        (leido ++ (trasLote e lotes lote s).resto).length = entrada.length) := by
  have hllenos' : ∀ l ∈ lotes ++ [lote], l.length = e.nargs := by
    intro l hl
    rcases List.mem_append.1 hl with hold | hnew
    · exact hllenos l hold
    · rw [List.mem_singleton.1 hnew, hlen]
  have hflat : (lotes ++ [lote]).flatten ++ [] = lotes.flatten ++ lote := by
    simp
  have hmas : (lotes.flatten ++ lote).length = (lotes.length + 1) * e.nargs := by
    rw [List.length_append, flatten_length hllenos, hlen, Nat.succ_mul]
  by_cases hfalla : e.falla lotes.length (e.comando :: lote) = true
  · have htras : trasLote e lotes lote s = s.exit e.seekable := if_pos hfalla
    rw [htras]
    obtain ⟨hlectura, hiff⟩ := h.exit e.seekable
    refine ⟨⟨hllenos', hpos, hflat ▸ hlectura, fun hfiel hseek i l hi hf => ?_⟩, fun hsin hfiel => ?_⟩
    · obtain ⟨hfiel', hnil⟩ := hiff.1 hfiel
      rcases getElem?_concat_cases hi with hold | ⟨rfl, rfl⟩
      · exact hin hfiel' hseek i l hold hf
      · rw [← hmas]
        exact (h.buffer_nil_iff hfiel').1 (hnil hseek)
    · refine hiff.2 ⟨hfiel, fun hseek => (h.buffer_nil_iff hfiel).2 ?_⟩
      rw [hmas]
      rcases hsin with hno | hino
      · rw [hno] at hseek
        cases hseek
      · obtain ⟨hle, hgrupo⟩ := h.grupo_lote hllenos' hfiel
        exact hino _ hle (by rw [hgrupo]; exact hfalla)
  · have htras : trasLote e lotes lote s = s := if_neg hfalla
    rw [htras]
    refine ⟨⟨hllenos', hpos, hflat ▸ h, fun hfiel hseek i l hi hf => ?_⟩, fun _ hfiel => hfiel⟩
    rcases getElem?_concat_cases hi with hold | ⟨rfl, rfl⟩
    · exact hin hfiel hseek i l hold hf
    · exact absurd hf hfalla

theorem Reparto.start (hargs : 1 ≤ e.nargs) (entrada : Cadena) :
    Reparto e entrada [] [] [] (.abrir entrada) where
  llenos := by simp
  pocas := hargs
  lectura := .start e.tam entrada
  inofensivos := by simp

example : lineas [97, 10, 10, 98, 10, 99, 99, 10, 100] = [[97], [], [98], [99, 99], [100]] := by decide

end SistemasOperativos.Fork.Xargs
