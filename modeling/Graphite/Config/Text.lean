import Mathlib.Data.List.TakeWhile
import Mathlib.Tactic.Common

/-! # The text of a configuration file

What `SaveTreeAs` writes for the name and the value of a key, and how `unEscapeText` reads it back.
Names are quoted only if they have a space or a quote, values unless they are numbers, but every text
that is read is unescaped. So a name that is written as it is loses its backslashes.
-/

namespace Graphite.Config

open List

abbrev Text := List Char

/-! ## Numbers -/

/-- What the libraries answer about a text: a full match of the parsers `real_p` and `int_p`, and whether
`lexical_cast` takes it. -/
structure Casts where
  realP : Text → Bool
  intP : Text → Bool
  toDouble : Text → Bool
  toInt : Text → Bool

def Plain (s : Text) : Prop := ∀ c ∈ s, c ≠ '\\' ∧ c ≠ '"'

/-- The assumption on the libraries: the parsers match no backslash and no quote, and `lexical_cast`,
which takes a whole string while the parsers stop at its first NUL, takes no NUL. -/
structure Casts.Numeric (casts : Casts) : Prop where
  plain : ∀ v, casts.realP v = true ∨ casts.intP v = true → Plain v
  noNul : ∀ v, casts.toDouble v = true ∨ casts.toInt v = true → '\x00' ∉ v

/-- `c_str`, as a parser reads it. -/
def cStr (v : Text) : Text := v.takeWhile (· ≠ '\x00')

def floatValid (casts : Casts) (v : Text) : Bool := casts.realP (cStr v) && casts.toDouble v

def intValid (casts : Casts) (v : Text) : Bool := casts.intP (cStr v) && casts.toInt v

/-! ## Saving and loading -/

def escapeText (source : Text) : Text :=
  source.flatMap fun
    | '\\' => ['\\', '\\']
    | '"' => ['\\', '"']
    | c => [c]

def quote (source : Text) : Text := '"' :: escapeText source ++ ['"']

/-- The text `SaveTreeAs` writes for the name of a key. -/
def saveName (name : Text) : Text := if ' ' ∈ name ∨ '"' ∈ name then quote name else name

def saveValue (casts : Casts) (value : Text) : Text :=
  if floatValid casts value || intValid casts value then value else quote value

def unEscapeChar : Char → Char
  | 'b' => '\x08'
  | 'r' => '\r'
  | 'f' => '\x0c'
  | 't' => '\t'
  | 'n' => '\n'
  | c => c

/-- The loop of `unEscapeText`; the flag tells that the last character was a backslash. -/
def unEscapeLoop : Bool → Text → Text
  | _, [] => []
  | true, c :: cs => unEscapeChar c :: unEscapeLoop false cs
  | false, c :: cs => if c = '\\' then unEscapeLoop true cs else c :: unEscapeLoop false cs

def unEscapeText (source : Text) : Text :=
  unEscapeLoop false <|
    if source.length ≥ 2 ∧ source.head? = some '"' ∧ source.getLast? = some '"' then
      source.tail.dropLast
    else source

/-! ## Round trips -/

variable {s cs : Text} {casts : Casts}

theorem unEscapeLoop_escapeText (s : Text) : unEscapeLoop false (escapeText s) = s := by
  induction s with
  | nil => rfl
  | cons c s ih =>
    unfold escapeText at ih ⊢
    rw [flatMap_cons]
    split
    · simp [unEscapeLoop, unEscapeChar, ih]
    · simp [unEscapeLoop, unEscapeChar, ih]
    · next hbackslash _ =>
      rw [singleton_append, unEscapeLoop, if_neg hbackslash, ih]

theorem unEscapeText_quote (s : Text) : unEscapeText (quote s) = s := by
  have hlast : (quote s).getLast? = some '"' := getLast?_concat
  have hinner : (quote s).tail.dropLast = escapeText s := by simp [quote]
  rw [unEscapeText, if_pos ⟨by simp [quote], rfl, hlast⟩, hinner]
  exact unEscapeLoop_escapeText s

theorem unEscapeLoop_eq_self (h : '\\' ∉ s) : unEscapeLoop false s = s := by
  induction s with
  | nil => rfl
  | cons c s ih =>
    rw [mem_cons, not_or] at h
    rw [unEscapeLoop, if_neg (Ne.symm h.1), ih h.2]

theorem unEscapeText_of_unquoted (h : '"' ∉ s) : unEscapeText s = unEscapeLoop false s := by
  rw [unEscapeText, if_neg]
  rintro ⟨-, hhead, -⟩
  exact h (mem_of_mem_head? hhead)

theorem length_unEscapeLoop (b : Bool) (s : Text) : (unEscapeLoop b s).length ≤ s.length := by
  induction s generalizing b with
  | nil => simp [unEscapeLoop]
  | cons c s ih =>
    have hfalse := ih false
    have htrue := ih true
    cases b with
    | true => simpa [unEscapeLoop] using hfalse
    | false =>
      rw [unEscapeLoop]
      split <;> simp only [length_cons] <;> omega

theorem length_unEscapeLoop_lt (h : '\\' ∈ s) : (unEscapeLoop false s).length < s.length := by
  induction s with
  | nil => cases h
  | cons c s ih =>
    rw [unEscapeLoop]
    split
    · have hle := length_unEscapeLoop true s
      rw [length_cons]
      omega
    · next hc =>
      have hlt := ih ((mem_cons.mp h).resolve_left (Ne.symm hc))
      simpa using hlt

theorem Plain.unEscapeText (h : Plain s) : unEscapeText s = s := by
  rw [unEscapeText_of_unquoted fun hc => (h _ hc).2 rfl]
  exact unEscapeLoop_eq_self fun hc => (h _ hc).1 rfl

theorem Casts.Numeric.plain_of_valid (h : casts.Numeric)
    (hvalid : (floatValid casts s || intValid casts s) = true) : Plain s := by
  have hcStr : casts.toDouble s = true ∨ casts.toInt s = true → cStr s = s := by
    intro hcast
    apply takeWhile_eq_self_iff.mpr
    intro c hc
    have hnul := h.noNul s hcast
    simpa using fun h0 : c = '\x00' => hnul (h0 ▸ hc)
  simp only [floatValid, intValid, Bool.or_eq_true, Bool.and_eq_true] at hvalid
  rcases hvalid with ⟨hreal, hcast⟩ | ⟨hint, hcast⟩
  · rw [hcStr (.inl hcast)] at hreal
    exact h.plain s (.inl hreal)
  · rw [hcStr (.inr hcast)] at hint
    exact h.plain s (.inr hint)

/-- A value is always read back; a name is, exactly if it is quoted or has no backslash. -/
theorem round_trip_iff (casts : Casts) (h : casts.Numeric) (name value : Text) :
    (unEscapeText (saveName name) = name ∧ unEscapeText (saveValue casts value) = value) ↔
      (' ' ∈ name ∨ '"' ∈ name ∨ '\\' ∉ name) := by
  have hvalue : unEscapeText (saveValue casts value) = value := by
    unfold saveValue
    split
    · next hvalid => exact (h.plain_of_valid hvalid).unEscapeText
    · exact unEscapeText_quote value
  rw [and_iff_left hvalue, ← or_assoc]
  unfold saveName
  split
  · next hquoted => exact ⟨fun _ => .inl hquoted, fun _ => unEscapeText_quote name⟩
  · next hraw =>
    rw [unEscapeText_of_unquoted fun hc => hraw (.inr hc)]
    constructor
    · intro heq
      right
      intro hmem
      have hlt := length_unEscapeLoop_lt hmem
      rw [heq] at hlt
      exact lt_irrefl _ hlt
    · intro h
      exact unEscapeLoop_eq_self (h.resolve_left hraw)

/-- A quoted name and a number, with parsers that take texts of digits. -/
theorem round_trip_iff_digits :
    let digits : Text → Bool := fun v => v.all Char.isDigit
    unEscapeText (saveName ['a', '\\', ' ']) = ['a', '\\', ' '] ∧
      unEscapeText (saveValue ⟨digits, digits, digits, digits⟩ ['4', '2']) = ['4', '2'] := by
  intro digits
  have hdigits : ∀ v, digits v = true ∨ digits v = true → ∀ c ∈ v, c.isDigit = true :=
    fun v h => all_eq_true.mp (or_self_iff.mp h)
  have hnumeric : Casts.Numeric ⟨digits, digits, digits, digits⟩ := by
    constructor
    · intro v hv c hc
      have hdigit := hdigits v hv c hc
      constructor <;> rintro rfl <;> contradiction
    · intro v hv hc
      have hdigit := hdigits v hv _ hc
      contradiction
  exact (round_trip_iff _ hnumeric _ _).mpr (by decide)

/-- A name with a backslash before the letter `b` comes back with a backspace. -/
theorem backslash_lost : unEscapeText (saveName ['a', '\\', 'b']) = ['a', '\x08'] ∧
    unEscapeText (saveName ['a', '\\', 'b']) ≠ ['a', '\\', 'b'] := by decide

end Graphite.Config
