import Conjunct.Query
import Conjunct.Text.Parser

/-!
# The grammar of queries

The rule notation, such as `Q(x, SUM(y * 2)) :- R(x, y), S(y, 'a'), x < 5`:

* a query is a head, the mark `:-` and one or more literals;
* a head is a name and a bracketed list of variables and aggregates;
* a literal is a relation name with a bracketed list of terms, or two terms with a comparator
  between them;
* a term is an integer, a string between single quotes, or a variable.

Layout may stand between any two tokens. Where two readings begin alike, the first one listed is
tried first: an aggregate before a variable of the same name, an atom before a comparison, a longer
comparator before a shorter one.
-/

namespace Conjunct

namespace Grammar

/-! ## Tokens -/

/-- Whether a character may begin a name. -/
def isNameStart (c : Char) : Bool :=
  ('a' ≤ c && c ≤ 'z') || ('A' ≤ c && c ≤ 'Z') || c == '_'

/-- Whether a character may stand in a name. -/
def isNameChar (c : Char) : Bool :=
  isNameStart c || Decimal.isDigit c

/-- Split off a name. -/
def takeName? : List Char → Option (String × List Char)
  | c :: text =>
    if isNameStart c then
      some (String.ofList (c :: text.takeWhile isNameChar), text.dropWhile isNameChar)
    else
      none
  | [] => none

theorem takeName?_suffix {text rest : List Char} {name : String}
    (h : takeName? text = some (name, rest)) : rest <:+ text := by
  unfold takeName? at h
  split at h
  · next c tail =>
    split at h
    · cases h
      exact (List.dropWhile_suffix _).trans (List.suffix_cons c tail)
    · cases h
  · cases h

/-- Split off an integer: an optional minus sign and digits. -/
def takeInteger? (text : List Char) : Option (Integer × List Char) :=
  let (sign, unsigned) := match text with
    | '-' :: unsigned => (['-'], unsigned)
    | unsigned => ([], unsigned)
  (Integer.read? (sign ++ unsigned.takeWhile Decimal.isDigit)).map
    (·, unsigned.dropWhile Decimal.isDigit)

theorem takeInteger?_suffix {text rest : List Char} {n : Integer}
    (h : takeInteger? text = some (n, rest)) : rest <:+ text := by
  unfold takeInteger? at h
  split at h
  next sign unsigned heq =>
  obtain ⟨m, _, hm⟩ := Option.map_eq_some_iff.mp h
  cases hm
  refine (List.dropWhile_suffix _).trans ?_
  split at heq
  · cases heq
    exact List.suffix_cons _ _
  · cases heq
    exact List.suffix_rfl

/-- Split off a string between single quotes. -/
def takeString? : List Char → Option (String × List Char)
  | '\'' :: text =>
    match text.dropWhile (· ≠ '\'') with
    | _ :: rest => some (String.ofList (text.takeWhile (· ≠ '\'')), rest)
    | [] => none
  | _ => none

theorem takeString?_suffix {text rest : List Char} {content : String}
    (h : takeString? text = some (content, rest)) : rest <:+ text := by
  unfold takeString? at h
  split at h
  · next tail =>
    split at h
    · next q after heq =>
      cases h
      refine (List.suffix_cons q _).trans (List.IsSuffix.trans ?_ (List.suffix_cons _ tail))
      exact heq ▸ List.dropWhile_suffix _
    · cases h
  · cases h

open Conjunct.Parser (token word mark spaced listOf optionalListOf)

/-- The parser of a name. -/
def name : Parser String :=
  token takeName? takeName?_suffix

/-- The parser of a term. -/
def term : Parser Term :=
  ((token takeInteger? takeInteger?_suffix).map (.const ∘ .integer)).orElse <|
    ((token takeString? takeString?_suffix).map (.const ∘ .string)).orElse <|
      name.map (.var ∘ .mk)

/-- The parser of a comparator; of two that begin alike, the longer is tried first. -/
def comparator : Parser Comparator :=
  let symbol (op : Comparator) := (word op.symbol.toList).map fun _ => op
  (symbol .ne).orElse <| (symbol .le).orElse <| (symbol .ge).orElse <|
    (symbol .eq).orElse <| (symbol .lt).orElse (symbol .gt)

/-! ## Literals -/

/-- The parser of a bracketed list, which may be empty. -/
def bracketed {α : Type} (elem : Parser α) : Parser (List α) :=
  ((mark ['(']).skipThen (optionalListOf ',' (spaced elem))).thenSkip (mark [')'])

/-- The parser of an atom. -/
def atom : Parser Atom :=
  ((spaced name).pair (bracketed term)).map fun (relation, terms) => ⟨relation, terms⟩

/-- The parser of a comparison. -/
def comparison : Parser Comparison :=
  ((spaced term).pair ((spaced comparator).pair (spaced term))).map
    fun (left, op, right) => ⟨left, op, right⟩

/-- The parser of a literal. -/
def literal : Parser Literal :=
  (atom.map .atom).orElse (comparison.map .comparison)

/-! ## Queries -/

/-- An item of a head, as it is written. -/
inductive HeadItem where
  | output (v : Variable)
  | sum (factors : List Term)

/-- The parser of an aggregate. -/
def aggregate : Parser (List Term) :=
  (word ['S', 'U', 'M']).skipThen <|
    ((mark ['(']).skipThen (listOf '*' (spaced term))).thenSkip (mark [')'])

/-- The parser of a head's item. -/
def headItem : Parser HeadItem :=
  (aggregate.map .sum).orElse (name.map (.output ∘ .mk))

/-- The parser of a rule: the name of its head, the items of its head, and its body. -/
def rule : Parser (String × List HeadItem × List Literal) :=
  ((spaced name).pair (bracketed headItem)).pair
      ((mark [':', '-']).skipThen (listOf ',' (spaced literal)))
    |>.map fun ((name, items), body) => (name, items, body)

end Grammar

end Conjunct
