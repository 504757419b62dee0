import ScriptMinifier.Proofs.Layout

/-!
# The tokens of a script by maximal munch

`munch` reads a script without knowing where an operand may stand: it skips white space and comments
and takes, each time, the longest word, number or operator there is, or a quoted string, or a single
byte.  A slash is always a division to it.  It fails only on a string or comment that is not closed.

The equations below say what it makes of a text that begins with white space, a comment, or one of
its tokens.  Where a token could be longer they ask for the byte behind it.
-/

namespace ScriptMinifier

/-! ### Bytes -/

namespace Byte

def isSpace (b : Byte) : Bool := b == space || b == tab || b == lf || b == ff || b == cr

def beginsName (b : Byte) : Bool := b.isLetter || b == 0x5f || b == 0x24

def inName (b : Byte) : Bool := b.beginsName || b.isDigit

def inNumber (b : Byte) : Bool := b.isDigit || b == dot

end Byte

/-! ### The tokenizer -/

namespace Munch

/-- The operators of more than one byte, longer ones first. -/
def operators : List Bytes :=
  [ ['=', '=', '='], ['=', '='], ['+', '+'], ['-', '-'], ['&', '&'], ['|', '|'] ].map
    fun letters => letters.map Byte.ofChar

/-- The operator with which a text begins, or its first byte. -/
def operatorAt (text : Bytes) : Bytes :=
  (operators.find? fun op => op.isPrefixOf text).getD (text.take 1)

/-- What stands behind the first star with a slash behind it. -/
def afterComment : Bytes → Option Bytes
  | [] => none
  | b :: rest =>
    if b = Byte.star ∧ rest.head? = some Byte.slash then some rest.tail else afterComment rest

/-- A text cut behind the first `quote` that is not escaped. -/
def cutQuoted (quote : Byte) : Bytes → Option (Bytes × Bytes)
  | [] => none
  | b :: rest =>
    if b = quote then some ([b], rest)
    else if b = Byte.backslash then
      match rest with
      | [] => none
      | c :: rest => (cutQuoted quote rest).map fun cut => (b :: c :: cut.1, cut.2)
    else (cutQuoted quote rest).map fun cut => (b :: cut.1, cut.2)

/-- Cuts a text that begins with `b`: its first token, or `none` for white space or a comment, and
what follows. -/
def cutFirst (b : Byte) (rest : Bytes) : Option (Option Bytes × Bytes) :=
  if b.isSpace then some (none, rest)
  else if b = Byte.slash ∧ rest.head? = some Byte.slash then
    some (none, rest.dropWhile fun c => c != Byte.lf)
  else if b = Byte.slash ∧ rest.head? = some Byte.star then
    (afterComment rest.tail).map fun rest => (none, rest)
  else if b.isQuote then (cutQuoted b rest).map fun cut => (some (b :: cut.1), cut.2)
  else if b.isDigit then
    some (some (b :: rest.takeWhile Byte.inNumber), rest.dropWhile Byte.inNumber)
  else if b.beginsName then
    some (some (b :: rest.takeWhile Byte.inName), rest.dropWhile Byte.inName)
  else some (some (operatorAt (b :: rest)), (b :: rest).drop (operatorAt (b :: rest)).length)

theorem length_afterComment_le {text rest : Bytes} (h : afterComment text = some rest) :
    rest.length ≤ text.length := by
  induction text with
  | nil => cases h
  | cons b text ih =>
    rw [afterComment] at h
    split at h
    · cases h
      rw [List.length_tail, List.length_cons]
      omega
    · have hle := ih h
      rw [List.length_cons]
      omega

theorem length_cutQuoted_le {quote : Byte} {text body rest : Bytes}
    (h : cutQuoted quote text = some (body, rest)) : rest.length ≤ text.length := by
  fun_induction cutQuoted quote text generalizing body with
  | case1 => cases h
  | case2 text =>
    cases h
    exact Nat.le_succ _
  | case3 => cases h
  | case4 c text hb ih =>
    obtain ⟨⟨body', rest'⟩, hcut, heq⟩ := Option.map_eq_some_iff.mp h
    cases heq
    have hle := ih hcut
    rw [List.length_cons, List.length_cons]
    omega
  | case5 b text hb hback ih =>
    obtain ⟨⟨body', rest'⟩, hcut, heq⟩ := Option.map_eq_some_iff.mp h
    cases heq
    have hle := ih hcut
    rw [List.length_cons]
    omega

theorem operatorAt_ne_nil (b : Byte) (rest : Bytes) : operatorAt (b :: rest) ≠ [] := by
  rw [operatorAt]
  cases hfind : operators.find? fun op => op.isPrefixOf (b :: rest) with
  | none => simp
  | some op =>
    have hne : ∀ op ∈ operators, op ≠ [] := by decide
    exact hne op (List.mem_of_find?_eq_some hfind)

/-- **What follows is shorter.** -/
theorem length_cutFirst_le {b : Byte} {rest rest' : Bytes} {token : Option Bytes}
    (h : cutFirst b rest = some (token, rest')) : rest'.length ≤ rest.length := by
  rw [cutFirst] at h
  split at h
  · cases h
    exact Nat.le_refl _
  split at h
  · cases h
    exact (List.dropWhile_sublist _).length_le
  split at h
  · obtain ⟨rest'', hafter, heq⟩ := Option.map_eq_some_iff.mp h
    cases heq
    have hle := length_afterComment_le hafter
    rw [List.length_tail] at hle
    omega
  split at h
  · obtain ⟨⟨body, rest''⟩, hcut, heq⟩ := Option.map_eq_some_iff.mp h
    cases heq
    exact length_cutQuoted_le hcut
  split at h
  · cases h
    exact (List.dropWhile_sublist _).length_le
  split at h
  · cases h
    exact (List.dropWhile_sublist _).length_le
  · cases h
    have hpos := List.length_pos_of_ne_nil (operatorAt_ne_nil b rest)
    rw [List.length_drop, List.length_cons]
    omega

end Munch

open Munch in
/-- The tokens of a text, or `none` if a string or comment in it is not closed. -/
def munch : Bytes → Option (List Bytes)
  | [] => some []
  | b :: rest =>
    match _h : cutFirst b rest with
    | none => none
    | some (token, rest') => (munch rest').map fun tokens => token.toList ++ tokens
termination_by text => text.length
decreasing_by exact Nat.lt_succ_of_le (length_cutFirst_le _h)

example : munch (utf8 "a+++b /* x */ === 'q\\'' // tail\n2.5")
    = some (["a", "++", "+", "b", "===", "'q\\''", "2.5"].map utf8) := by cbv

/-! ### White space and comments -/

open Munch

theorem munch_of_cutFirst {b : Byte} {rest rest' : Bytes} {token : Option Bytes}
    (h : cutFirst b rest = some (token, rest')) :
    munch (b :: rest) = (munch rest').map fun tokens => token.toList ++ tokens := by
  rw [munch]
  split
  next hnone =>
    rw [h] at hnone
    cases hnone
  next hsome =>
    rw [h] at hsome
    cases hsome
    rfl

theorem munch_nil : munch [] = some [] := by rw [munch]

theorem munch_space {b : Byte} (hb : b.isSpace = true) (rest : Bytes) :
    munch (b :: rest) = munch rest := by
  have hcut : cutFirst b rest = some (none, rest) := by rw [cutFirst, if_pos hb]
  rw [munch_of_cutFirst hcut]
  simp

theorem not_closes_of_cons {b : Byte} {body : Bytes}
    (h : ¬ [Byte.star, Byte.slash] <:+: b :: body ++ [Byte.star]) :
    ¬ (b = Byte.star ∧ body.head?.or (some Byte.star) = some Byte.slash) := by
  rintro ⟨rfl, hhead⟩
  cases body with
  | nil => exact absurd (Option.some.inj hhead) (by decide)
  | cons c body =>
    obtain rfl : c = Byte.slash := Option.some.inj hhead
    exact h ⟨[], body ++ [Byte.star], rfl⟩

theorem not_infix_of_cons {b : Byte} {body : Bytes}
    (h : ¬ [Byte.star, Byte.slash] <:+: b :: body ++ [Byte.star]) :
    ¬ [Byte.star, Byte.slash] <:+: body ++ [Byte.star] :=
  fun hin => h (hin.trans ⟨[b], [], by simp⟩)

theorem afterComment_append {body : Bytes}
    (hbody : ¬ [Byte.star, Byte.slash] <:+: body ++ [Byte.star]) (rest : Bytes) :
    afterComment (body ++ Byte.star :: Byte.slash :: rest) = some rest := by
  induction body with
  | nil => rw [List.nil_append, afterComment, if_pos ⟨rfl, rfl⟩, List.tail_cons]
  | cons b body ih =>
    have hopen := not_closes_of_cons hbody
    rw [List.cons_append, afterComment, List.head?_append, List.head?_cons, if_neg hopen]
    exact ih (not_infix_of_cons hbody)

theorem munch_comment {c : Bytes} (hc : IsComment c) (rest : Bytes) :
    munch (c ++ rest) = munch rest := by
  have hspace : Byte.slash.isSpace = false := by decide
  have hstar : Byte.star ≠ Byte.slash := by decide
  cases hc with
  | @line body hbody =>
    have hdrop : (Byte.slash :: (body ++ Byte.lf :: rest)).dropWhile (fun c => c != Byte.lf)
        = Byte.lf :: rest := by
      have hall : ∀ c ∈ Byte.slash :: body, (c != Byte.lf) = true := by
        intro c hc
        rw [bne_iff_ne]
        rintro rfl
        rcases List.mem_cons.mp hc with hslash | hc
        · exact absurd hslash (by decide)
        · exact hbody hc
      rw [← List.cons_append, List.dropWhile_append_of_pos hall]
      rfl
    have hcut : cutFirst Byte.slash (Byte.slash :: (body ++ Byte.lf :: rest))
        = some (none, Byte.lf :: rest) := by
      rw [cutFirst, if_neg (by simp [hspace]), if_pos ⟨rfl, rfl⟩, hdrop]
    have htext : Byte.slash :: Byte.slash :: (body ++ [Byte.lf]) ++ rest
        = Byte.slash :: Byte.slash :: (body ++ Byte.lf :: rest) := by simp
    rw [htext, munch_of_cutFirst hcut, munch_space (by decide)]
    simp
  | @block body hbody =>
    have hcut : cutFirst Byte.slash (Byte.star :: (body ++ Byte.star :: Byte.slash :: rest))
        = some (none, rest) := by
      rw [cutFirst, if_neg (by simp [hspace]), if_neg (by simp [hstar]), if_pos ⟨rfl, rfl⟩,
        List.tail_cons, afterComment_append hbody]
      rfl
    have htext : Byte.slash :: Byte.star :: (body ++ [Byte.star, Byte.slash]) ++ rest
        = Byte.slash :: Byte.star :: (body ++ Byte.star :: Byte.slash :: rest) := by simp
    rw [htext, munch_of_cutFirst hcut]
    simp

/-! ### Names, numbers and strings -/

theorem Byte.eq_of_isSpace {b : Byte} (h : b.isSpace = true) :
    b = Byte.space ∨ b = Byte.tab ∨ b = Byte.lf ∨ b = Byte.ff ∨ b = Byte.cr := by
  simpa [Byte.isSpace, or_assoc] using h

theorem Byte.kinds_of_inName {b : Byte} (h : b.inName = true) :
    b.isSpace = false ∧ b.isQuote = false ∧ b ≠ Byte.slash := by
  refine ⟨?_, ?_, ?_⟩
  · rw [← Bool.not_eq_true]
    intro hspace
    rcases Byte.eq_of_isSpace hspace with rfl | rfl | rfl | rfl | rfl <;> exact absurd h (by decide)
  · rw [← Bool.not_eq_true]
    intro hquote
    rcases Byte.eq_of_isQuote hquote with rfl | rfl <;> exact absurd h (by decide)
  · rintro rfl
    exact absurd h (by decide)

theorem Byte.inName_of_beginsName {b : Byte} (h : b.beginsName = true) : b.inName = true := by
  rw [Byte.inName, h, Bool.true_or]

theorem Byte.inName_of_isDigit {b : Byte} (h : b.isDigit = true) : b.inName = true := by
  rw [Byte.inName, h, Bool.or_true]

theorem takeWhile_append_stop {p : Byte → Bool} {xs rest : Bytes} (hxs : ∀ c ∈ xs, p c = true)
    (hrest : ∀ c ∈ rest.head?, p c = false) :
    (xs ++ rest).takeWhile p = xs ∧ (xs ++ rest).dropWhile p = rest := by
  rw [List.takeWhile_append_of_pos hxs, List.dropWhile_append_of_pos hxs]
  cases rest with
  | nil => simp
  | cons c rest => simp [hrest c rfl]

theorem munch_number {b : Byte} {xs rest : Bytes} (hb : b.isDigit = true)
    (hxs : ∀ c ∈ xs, c.inNumber = true) (hrest : ∀ c ∈ rest.head?, c.inNumber = false) :
    munch (b :: xs ++ rest) = (munch rest).map fun tokens => (b :: xs) :: tokens := by
  obtain ⟨hspace, hquote, hslash⟩ := Byte.kinds_of_inName (Byte.inName_of_isDigit hb)
  obtain ⟨htake, hdrop⟩ := takeWhile_append_stop hxs hrest
  have hcut : cutFirst b (xs ++ rest) = some (some (b :: xs), rest) := by
    simp [cutFirst, hspace, hquote, hslash, hb, htake, hdrop]
  rw [List.cons_append, munch_of_cutFirst hcut]
  rfl

theorem Byte.not_isDigit_of_beginsName {b : Byte} (h : b.beginsName = true) :
    b.isDigit = false := by
  rw [← Bool.not_eq_true]
  intro hdigit
  simp only [Byte.beginsName, Byte.isLetter, Byte.isDigit, Bool.or_eq_true, Bool.and_eq_true,
    beq_iff_eq, decide_eq_true_eq, UInt8.le_iff_toNat_le] at h hdigit
  have hle : b.toNat ≤ 57 := hdigit.2
  rcases h with ((⟨hge, -⟩ | ⟨hge, -⟩) | rfl) | rfl
  · have hge : 65 ≤ b.toNat := hge
    omega
  · have hge : 97 ≤ b.toNat := hge
    omega
  · exact absurd hle (by decide)
  · exact absurd hdigit.1 (by decide)

theorem munch_name {b : Byte} {xs rest : Bytes} (hb : b.beginsName = true)
    (hxs : ∀ c ∈ xs, c.inName = true) (hrest : ∀ c ∈ rest.head?, c.inName = false) :
    munch (b :: xs ++ rest) = (munch rest).map fun tokens => (b :: xs) :: tokens := by
  obtain ⟨hspace, hquote, hslash⟩ := Byte.kinds_of_inName (Byte.inName_of_beginsName hb)
  have hdigit := Byte.not_isDigit_of_beginsName hb
  obtain ⟨htake, hdrop⟩ := takeWhile_append_stop hxs hrest
  have hcut : cutFirst b (xs ++ rest) = some (some (b :: xs), rest) := by
    simp [cutFirst, hspace, hquote, hslash, hdigit, hb, htake, hdrop]
  rw [List.cons_append, munch_of_cutFirst hcut]
  rfl

inductive QuotedBody (quote : Byte) : Bytes → Prop
  | nil : QuotedBody quote []
  | plain {b : Byte} {body : Bytes} (hquote : b ≠ quote) (hback : b ≠ Byte.backslash)
      (hbreak : b.isLineBreak = false) (rest : QuotedBody quote body) : QuotedBody quote (b :: body)
  | escape {c : Byte} {body : Bytes} (hbreak : c.isLineBreak = false)
      (rest : QuotedBody quote body) : QuotedBody quote (Byte.backslash :: c :: body)

theorem cutQuoted_append {quote : Byte} {body : Bytes} (hquote : quote.isQuote = true)
    (h : QuotedBody quote body) (rest : Bytes) :
    cutQuoted quote (body ++ quote :: rest) = some (body ++ [quote], rest) := by
  have hback : Byte.backslash ≠ quote := by
    rintro rfl
    exact absurd hquote (by decide)
  induction h with
  | nil => simp [cutQuoted.eq_def]
  | plain hne hback hbreak _ ih => simp [cutQuoted.eq_def quote (_ :: _), hne, hback, ih]
  | escape hbreak _ ih => simp [cutQuoted.eq_def quote (_ :: _), hback, ih]

theorem munch_quoted {quote : Byte} {body : Bytes} (hquote : quote.isQuote = true)
    (h : QuotedBody quote body) (rest : Bytes) :
    munch (quote :: (body ++ [quote]) ++ rest)
      = (munch rest).map fun tokens => (quote :: (body ++ [quote])) :: tokens := by
  have hspace : quote.isSpace = false := by
    rcases Byte.eq_of_isQuote hquote with rfl | rfl <;> decide
  have hcut : cutFirst quote (body ++ quote :: rest)
      = some (some (quote :: (body ++ [quote])), rest) := by
    simp [cutFirst, hspace, Byte.ne_slash_of_isQuote hquote, hquote, cutQuoted_append hquote h]
  have htext : quote :: (body ++ [quote]) ++ rest = quote :: (body ++ quote :: rest) := by simp
  rw [htext, munch_of_cutFirst hcut]
  rfl

/-! ### Operators -/

def Byte.isPunctuator (b : Byte) : Bool := !(b.isSpace || b.isQuote || b.inName)

theorem munch_punctuator {b : Byte} {rest : Bytes} (hb : b.isPunctuator = true)
    (hslash : b = Byte.slash → ¬ OpensComment rest.head?) :
    munch (b :: rest) = (munch ((b :: rest).drop (operatorAt (b :: rest)).length)).map
      fun tokens => operatorAt (b :: rest) :: tokens := by
  simp only [Byte.isPunctuator, Byte.inName, Bool.not_eq_true', Bool.or_eq_false_iff] at hb
  obtain ⟨⟨hspace, hquote⟩, hname, hdigit⟩ := hb
  have hline : ¬ (b = Byte.slash ∧ rest.head? = some Byte.slash) :=
    fun h => hslash h.1 (.inl h.2)
  have hblock : ¬ (b = Byte.slash ∧ rest.head? = some Byte.star) :=
    fun h => hslash h.1 (.inr h.2)
  have hcut : cutFirst b rest = some (some (operatorAt (b :: rest)),
      (b :: rest).drop (operatorAt (b :: rest)).length) := by
    simp only [cutFirst, hspace, hline, hblock, hquote, hdigit, hname, Bool.false_eq_true,
      if_false]
  rw [munch_of_cutFirst hcut]
  rfl

theorem Munch.eq_double_of_mem : ∀ op ∈ operators,
    op = op.headD 0 :: op.headD 0 :: op.drop 2 ∧ [op.headD 0, op.headD 0] ∈ operators := by decide

/-- **A byte is a token of its own** where it does not double into an operator. -/
theorem munch_single {b : Byte} {rest : Bytes} (hb : b.isPunctuator = true)
    (hslash : b = Byte.slash → ¬ OpensComment rest.head?)
    (hnext : [b, b] ∈ operators → rest.head? ≠ some b) :
    munch (b :: rest) = (munch rest).map fun tokens => [b] :: tokens := by
  have hat : operatorAt (b :: rest) = [b] := by
    have hnone : (operators.find? fun op => op.isPrefixOf (b :: rest)) = none := by
      rw [List.find?_eq_none]
      intro op hop hbegins
      obtain ⟨heq, hdouble⟩ := eq_double_of_mem op hop
      rw [heq, List.isPrefixOf_iff_prefix, List.cons_prefix_cons] at hbegins
      obtain ⟨hhead, tail, htail⟩ := hbegins
      rw [hhead] at hdouble htail
      exact hnext hdouble (by rw [← htail]; rfl)
    rw [operatorAt, hnone]
    rfl
  rw [munch_punctuator hb hslash, hat]
  rfl

theorem Munch.mem_operators_iff {b : Byte} :
    [b, b] ∈ operators ↔ b = 0x3d ∨ b = 0x2b ∨ b = 0x2d ∨ b = 0x26 ∨ b = 0x7c := by
  simp [operators, Byte.ofChar]

theorem Munch.isPunctuator_of_mem {b : Byte} (h : [b, b] ∈ operators) :
    b.isPunctuator = true ∧ b ≠ Byte.slash := by
  rcases mem_operators_iff.mp h with rfl | rfl | rfl | rfl | rfl <;> decide

/-- **A doubled byte is an operator** where it does not go on to be a longer one. -/
theorem munch_double {b : Byte} {rest : Bytes} (hb : [b, b] ∈ operators)
    (hnext : [b, b, b] ∈ operators → rest.head? ≠ some b) :
    munch (b :: b :: rest) = (munch rest).map fun tokens => [b, b] :: tokens := by
  obtain ⟨hpunctuator, hslash⟩ := isPunctuator_of_mem hb
  have hat : operatorAt (b :: b :: rest) = [b, b] := by
    rcases mem_operators_iff.mp hb with rfl | rfl | rfl | rfl | rfl
    · cases rest with
      | nil => rfl
      | cons c rest =>
        have hc : c ≠ 0x3d := by simpa using hnext (by decide)
        simp [operatorAt, operators, Byte.ofChar, List.isPrefixOf, Ne.symm hc]
    all_goals rfl
  rw [munch_punctuator hpunctuator fun h => absurd h hslash, hat]
  rfl

theorem munch_triple (rest : Bytes) :
    munch (0x3d :: 0x3d :: 0x3d :: rest)
      = (munch rest).map fun tokens => [0x3d, 0x3d, 0x3d] :: tokens := by
  have hat : operatorAt (0x3d :: 0x3d :: 0x3d :: rest) = [0x3d, 0x3d, 0x3d] := rfl
  rw [munch_punctuator (by decide) fun h => absurd h (by decide), hat]
  rfl

end ScriptMinifier
