import Mathlib.Data.List.TakeWhile
import DebugSweep.Json.Token

/-!
# The tokens of a written value

What is written is cut into the tokens it was written from (`tokens?_characters`). A string, a
bracket or the layout between two tokens is cut wherever it stands (`Cut`). A number or a name is
one word only where something else begins behind it (`Settles`), which is the case for every item
and every member, since a comma, an end of line or the end of the text follows.
-/

namespace DebugSweep.Json

mutual

/-- The tokens of a value. -/
def tokens : Json → List Token
  | .bool value => [.atom (.bool value)]
  | .number value => [.atom (.number ⟨value, 0⟩)]
  | .string text => [.string text]
  | .array [] => [.openArray, .closeArray]
  | .array (item :: items) =>
    .openArray :: (item.tokens ++ itemTokensAfter items ++ [.closeArray])
  | .object [] => [.openObject, .closeObject]
  | .object ((key, value) :: members) =>
    .openObject :: .string key :: .colon ::
      (value.tokens ++ memberTokensAfter members ++ [.closeObject])

/-- The tokens of the items that follow another one. -/
def itemTokensAfter : List Json → List Token
  | [] => []
  | item :: items => .comma :: (item.tokens ++ itemTokensAfter items)

/-- The tokens of the members that follow another one. -/
def memberTokensAfter : List (String × Json) → List Token
  | [] => []
  | (key, value) :: members =>
    .comma :: .string key :: .colon :: (value.tokens ++ memberTokensAfter members)

end

section Numbers

/-- No number but zero is written with a zero in front. -/
theorem head?_toDigits_ne {n : Nat} (h : 0 < n) : (Nat.toDigits 10 n).head? ≠ some '0' := by
  induction n using Nat.strongRecOn with
  | ind n ih =>
    by_cases hlt : n < 10
    · have hdigit : ∀ d < 10, 0 < d → d.digitChar ≠ '0' := by decide
      rw [Nat.toDigits_of_lt_base hlt, List.head?_singleton]
      simpa using hdigit n hlt h
    · rw [Nat.toDigits_of_base_le (by decide) (Nat.le_of_not_lt hlt), List.head?_append, ne_eq,
        Option.or_eq_some_iff]
      rintro (hhead | ⟨hnil, -⟩)
      · exact ih (n / 10) (by omega) (by omega) hhead
      · exact Nat.toDigits_ne_nil (List.head?_eq_none_iff.mp hnil)

/-- The digits of a number are read as the number. -/
theorem magnitude?_toDigits (n : Nat) :
    Decimal.magnitude? (Nat.toDigits 10 n) = some ⟨n, 0⟩ := by
  have hdigits (c : Char) (hc : c ∈ Nat.toDigits 10 n) : c.isDigit = true :=
    Nat.isDigit_of_mem_toDigits (by decide) (by decide) hc
  have htake : (Nat.toDigits 10 n).takeWhile Char.isDigit = Nat.toDigits 10 n :=
    List.takeWhile_eq_self_iff.mpr hdigits
  have hdrop : (Nat.toDigits 10 n).dropWhile Char.isDigit = [] :=
    List.dropWhile_eq_nil_iff.mpr hdigits
  have hzero : ¬((Nat.toDigits 10 n).head? = some '0' ∧ (Nat.toDigits 10 n).length ≠ 1) := by
    rintro ⟨hhead, hlength⟩
    rcases Nat.eq_zero_or_pos n with rfl | hpos
    · exact hlength rfl
    · exact head?_toDigits_ne hpos hhead
  simp [Decimal.magnitude?, Decimal.digits?, Decimal.fraction?, Decimal.exponent?, htake, hdrop,
    hzero, Nat.toDigits_ne_nil, Nat.ofDigitChars_ten_toDigits]

/-- The digits of a number are no name, and are read as the number. -/
theorem atomRead?_toDigits (n : Nat) :
    Atom.read? (Nat.toDigits 10 n) = some (.number ⟨n, 0⟩) := by
  have hdigits (c : Char) (hc : c ∈ Nat.toDigits 10 n) : c.isDigit = true :=
    Nat.isDigit_of_mem_toDigits (by decide) (by decide) hc
  have hother {c : Char} {rest : List Char} (hc : c.isDigit = false) :
      Nat.toDigits 10 n ≠ c :: rest := fun heq => by
    have hdigit := hdigits c (heq ▸ List.mem_cons_self)
    rw [hc] at hdigit
    cases hdigit
  rw [Atom.read?, if_neg (hother (by decide)), if_neg (hother (by decide)),
    if_neg (hother (by decide)), Decimal.read?, magnitude?_toDigits, Option.map_some]
  exact fun rest => hother (by decide)

end Numbers

/-- Reading the characters adds the tokens, wherever they stand. -/
def Cut (characters : List Char) (added : List Token) : Prop :=
  ∀ before, characters.foldlM Lexer.step ⟨before, .nothing⟩ =
    some ⟨added.reverse ++ before, .nothing⟩

/-- Reading the characters adds the tokens where no word goes on behind them. -/
def Settles (characters : List Char) (added : List Token) : Prop :=
  ∀ before, ∃ lexer, characters.foldlM Lexer.step ⟨before, .nothing⟩ = some lexer ∧
    lexer.settle? = some (added.reverse ++ before)

/-- The characters are cut into the tokens and begin with something else than a word. -/
def Apart (characters : List Char) (added : List Token) : Prop :=
  Cut characters added ∧ ∃ c rest, characters = c :: rest ∧ isWord c = false

variable {first second : List Char} {added more : List Token}

theorem Cut.settles (h : Cut first added) : Settles first added :=
  fun before => ⟨_, h before, rfl⟩

theorem Cut.append (h : Cut first added) (hmore : Cut second more) :
    Cut (first ++ second) (added ++ more) := fun before => by
  rw [List.foldlM_append, h before, List.reverse_append, List.append_assoc]
  exact hmore _

/-- A word that ends is settled before what ends it is read. -/
theorem step_of_settle? {lexer : Lexer} {settled : List Token} (h : lexer.settle? = some settled)
    {c : Char} (hc : isWord c = false) : lexer.step c = Lexer.step ⟨settled, .nothing⟩ c := by
  obtain ⟨before, part⟩ := lexer
  cases part with
  | nothing =>
    cases h
    rfl
  | word characters => simp [Lexer.step, hc, h]
  | string unclosed => cases h

/-- What is apart ends the word before it. -/
theorem Settles.append_apart (h : Settles first added) (hmore : Apart second more) :
    Cut (first ++ second) (added ++ more) := fun before => by
  obtain ⟨lexer, hlexer, hsettle⟩ := h before
  obtain ⟨hcut, c, rest, rfl, hc⟩ := hmore
  have hrest := hcut (added.reverse ++ before)
  rw [List.foldlM_cons, ← step_of_settle? hsettle hc, ← List.foldlM_cons] at hrest
  rw [List.foldlM_append, hlexer, List.reverse_append, List.append_assoc]
  exact hrest

/-- What a word is written with is no blank. -/
theorem isBlank_of_isWord {c : Char} (h : isWord c = true) : isBlank c = false := by
  rw [Bool.eq_false_iff]
  intro hblank
  simp only [isBlank, Bool.or_eq_true, beq_iff_eq] at hblank
  rcases hblank with ((rfl | rfl) | rfl) | rfl <;> exact absurd h (by decide)

/-- A word goes on while it is written. -/
theorem foldlM_step_word {word : List Char} (h : ∀ c ∈ word, isWord c = true)
    (before : List Token) (read : List Char) :
    word.foldlM Lexer.step ⟨before, .word read⟩ = some ⟨before, .word (word.reverse ++ read)⟩ := by
  induction word generalizing read with
  | nil => rfl
  | cons c word ih =>
    rw [List.forall_mem_cons] at h
    have hstep : Lexer.step ⟨before, .word read⟩ c = some ⟨before, .word (c :: read)⟩ :=
      if_pos h.1
    rw [List.foldlM_cons, hstep, Option.bind_eq_bind, Option.bind_some, ih h.2, List.reverse_cons,
      List.append_assoc, List.singleton_append]

/-- A word that can be read is one token where it ends. -/
theorem settles_word {word : List Char} (h : ∀ c ∈ word, isWord c = true) {atom : Atom}
    (hatom : Atom.read? word = some atom) : Settles word [.atom atom] := fun before => by
  cases word with
  | nil => cases hatom
  | cons c word =>
    rw [List.forall_mem_cons] at h
    have hstep : Lexer.step ⟨before, .nothing⟩ c = some ⟨before, .word [c]⟩ := by
      simp [Lexer.step, Lexer.start, isBlank_of_isWord h.1, h.1]
    refine ⟨⟨before, .word (word.reverse ++ [c])⟩, ?_, ?_⟩
    · rw [List.foldlM_cons, hstep, Option.bind_eq_bind, Option.bind_some, foldlM_step_word h.2]
    · simp [Lexer.settle?, hatom]

/-- A number is one token where it ends. -/
theorem settles_toDigits (n : Nat) : Settles (Nat.toDigits 10 n) [.atom (.number ⟨n, 0⟩)] := by
  refine settles_word (fun c hc => ?_) (atomRead?_toDigits n)
  have hdigit : c.isDigit = true := Nat.isDigit_of_mem_toDigits (by decide) (by decide) hc
  simp [isWord, Char.isAlphanum, hdigit]

/-- An end of line and the indentation behind it mean nothing. -/
theorem cut_newline (level : Nat) : Cut (newline level) [] := fun before => by
  have hblanks (count : Nat) : (List.replicate count ' ').foldlM Lexer.step ⟨before, .nothing⟩ =
      some ⟨before, .nothing⟩ := by
    induction count with
    | zero => rfl
    | succ count ih =>
      rw [List.replicate_succ, List.foldlM_cons]
      exact ih
  exact hblanks (2 * level)

/-- A character of a string is read from what it is written as. -/
theorem foldlM_step_escape (before : List Token) (read : List Char) (c : Char) :
    (escape c).foldlM Lexer.step ⟨before, .string ⟨read, .none⟩⟩ =
      some ⟨before, .string ⟨c :: read, .none⟩⟩ := by
  have hhex : ∀ d < 16, hexValue? (hexDigit d) = some d := by decide
  have hzero : hexValue? '0' = some 0 := rfl
  rw [escape]
  split_ifs with hquote hbackslash _ _ _ _ _ hcontrol
  · subst hquote
    rfl
  · subst hbackslash
    rfl
  iterate 5
    subst_vars
    rfl
  · have hhigh := hhex (c.toNat / 16) (by omega)
    have hlow := hhex (c.toNat % 16) (by omega)
    have hunit : c.toNat / 16 * 16 + c.toNat % 16 = c.toNat := by omega
    have hpush (unclosed : Unclosed) :
        unclosed.pushUnit? none c.toNat = some ⟨c :: unclosed.characters, .none⟩ := by
      have hlone : c.toNat < 0xD800 := by omega
      simp [Unclosed.pushUnit?, Unclosed.push, Nat.not_le_of_lt hlone,
        Nat.not_le_of_lt (Nat.lt_trans hlone (by decide : 0xD800 < 0xDC00))]
    simp [Lexer.step, Unclosed.step, hzero, hhigh, hlow, hunit, hpush]
  · simp [Lexer.step, Unclosed.step, Unclosed.push, hquote, hbackslash, hcontrol]

/-- A string is one token. -/
theorem cut_quote (text : String) : Cut (quote text) [.string text] := fun before => by
  have hcharacters (characters read : List Char) :
      (characters.flatMap escape).foldlM Lexer.step ⟨before, .string ⟨read, .none⟩⟩ =
        some ⟨before, .string ⟨characters.reverse ++ read, .none⟩⟩ := by
    induction characters generalizing read with
    | nil => rfl
    | cons c characters ih =>
      rw [List.flatMap_cons, List.foldlM_append, foldlM_step_escape, Option.bind_eq_bind,
        Option.bind_some, ih, List.reverse_cons, List.append_assoc, List.singleton_append]
  have hopen : Lexer.step ⟨before, .nothing⟩ '"' = some ⟨before, .string ⟨[], .none⟩⟩ := rfl
  rw [quote, List.foldlM_cons, hopen, Option.bind_eq_bind, Option.bind_some, List.foldlM_append,
    hcharacters]
  simp [Lexer.step]

/-- What is cut apart may have anything but a word put before it. -/
theorem Apart.cons {c : Char} (hc : isWord c = false) (hfirst : Cut [c] added)
    (hmore : Cut second more) : Apart (c :: second) (added ++ more) :=
  ⟨hfirst.append hmore, c, second, rfl, hc⟩

/-- The key of a member and the colon behind it. -/
theorem cut_key (level : Nat) (key : String) :
    Cut (newline level ++ quote key ++ [':', ' ']) [.string key, .colon] := by
  have hcolon : Cut [':', ' '] [.colon] := fun _ => rfl
  exact ((cut_newline level).append (cut_quote key)).append hcolon

/-- The end of an array or an object. -/
theorem apart_close (level : Nat) {c : Char} {token : Token} (hclose : Cut [c] [token]) :
    Apart (newline level ++ [c]) [token] :=
  ⟨(cut_newline level).append hclose, '\n', _, rfl, rfl⟩

mutual

/-- A value is cut into its tokens where no word goes on behind it. -/
theorem settles_characters (level : Nat) :
    ∀ value : Json, Settles (value.characters level) value.tokens
  | .bool true =>
    have hword : ['t', 'r', 'u', 'e'].all isWord = true := rfl
    settles_word (List.all_eq_true.mp hword) rfl
  | .bool false =>
    have hword : ['f', 'a', 'l', 's', 'e'].all isWord = true := rfl
    settles_word (List.all_eq_true.mp hword) rfl
  | .number value => settles_toDigits value
  | .string text => (cut_quote text).settles
  | .array [] => by
    have hboth : Cut ['[', ']'] [.openArray, .closeArray] := fun _ => rfl
    exact hboth.settles
  | .array (item :: items) => by
    have hopen : Cut ['['] [.openArray] := fun _ => rfl
    have hclose : Cut [']'] [.closeArray] := fun _ => rfl
    have hrest := apart_itemsAfter (level + 1) (apart_close level hclose) items
    have hitem := (settles_characters (level + 1) item).append_apart hrest
    have hall := (hopen.append (cut_newline (level + 1))).append hitem
    simpa [characters, tokens] using hall.settles
  | .object [] => by
    have hboth : Cut ['\x7b', '\x7d'] [.openObject, .closeObject] := fun _ => rfl
    exact hboth.settles
  | .object ((key, value) :: members) => by
    have hopen : Cut ['\x7b'] [.openObject] := fun _ => rfl
    have hclose : Cut ['\x7d'] [.closeObject] := fun _ => rfl
    have hrest := apart_membersAfter (level + 1) (apart_close level hclose) members
    have hvalue := (settles_characters (level + 1) value).append_apart hrest
    have hall := (hopen.append (cut_key (level + 1) key)).append hvalue
    simpa [characters, tokens] using hall.settles

/-- The items that follow another one are cut into their tokens. -/
theorem apart_itemsAfter (level : Nat) {rest : List Char} {ends : List Token}
    (hrest : Apart rest ends) : ∀ items : List Json,
      Apart (itemsAfter level items ++ rest) (itemTokensAfter items ++ ends)
  | [] => hrest
  | item :: items => by
    have hcomma : Cut [','] [.comma] := fun _ => rfl
    have hitem := (settles_characters level item).append_apart (apart_itemsAfter level hrest items)
    have hall := Apart.cons rfl hcomma ((cut_newline level).append hitem)
    simpa [itemsAfter, itemTokensAfter] using hall

/-- The members that follow another one are cut into their tokens. -/
theorem apart_membersAfter (level : Nat) {rest : List Char} {ends : List Token}
    (hrest : Apart rest ends) : ∀ members : List (String × Json),
      Apart (membersAfter level members ++ rest) (memberTokensAfter members ++ ends)
  | [] => hrest
  | (key, value) :: members => by
    have hcomma : Cut [','] [.comma] := fun _ => rfl
    have hvalue := (settles_characters level value).append_apart
      (apart_membersAfter level hrest members)
    have hall := Apart.cons rfl hcomma ((cut_key level key).append hvalue)
    simpa [membersAfter, memberTokensAfter] using hall

end

/-- What is written of a value is cut into its tokens. -/
theorem tokens?_characters (value : Json) (level : Nat) :
    tokens? (value.characters level) = some value.tokens := by
  obtain ⟨lexer, hlexer, hsettle⟩ := settles_characters level value []
  simp [tokens?, hlexer, hsettle]

end DebugSweep.Json
