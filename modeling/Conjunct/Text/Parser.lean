/-!
# Parsers that report where they stop

A parser reads from the front of a text. It yields a value and what is left, or the place where it
stopped; a place is named by the text that begins there.

Both kinds of place lie in the text that was read: this is part of the type (`rest_suffix`,
`stop_suffix`). So recursion over what is left is recursion over a shorter text, and the place
that a failing parser reports is a place of the whole text, however the parser was put together.

A choice reports the place of its last alternative. A list of elements ends before a separator
that no element follows, and the separator is then left unread.
-/

namespace Conjunct

/-- A reader of values of type `α` from the front of a text. -/
structure Parser (α : Type) where
  /-- The value and the rest of the text, or the place where reading stopped. -/
  run : List Char → Except (List Char) (α × List Char)
  /-- The rest is the end of the text. -/
  rest_suffix : ∀ {text a rest}, run text = .ok (a, rest) → rest <:+ text
  /-- So is the place of a failure. -/
  stop_suffix : ∀ {text stop}, run text = .error stop → stop <:+ text

namespace Parser

variable {α β γ : Type}

/-! ## Single tokens -/

/-- The parser of a token: it fails, if it does, at the beginning of the token. -/
def token (take? : List Char → Option (α × List Char))
    (suffix : ∀ {text a rest}, take? text = some (a, rest) → rest <:+ text) : Parser α where
  run text :=
    match take? text with
    | some found => .ok found
    | none => .error text
  rest_suffix := by
    intro text a rest h
    split at h
    · next found heq =>
      cases h
      exact suffix heq
    · cases h
  stop_suffix := by
    intro text stop h
    split at h
    · cases h
    · cases h
      exact List.suffix_rfl

/-- What follows a given word at the front of a text. -/
def afterWord? : List Char → List Char → Option (List Char)
  | [], text => some text
  | _ :: _, [] => none
  | c :: word, d :: text => if c = d then afterWord? word text else none

theorem afterWord?_eq_some_iff {word text rest : List Char} :
    afterWord? word text = some rest ↔ text = word ++ rest := by
  induction word generalizing text with
  | nil => simp [afterWord?, eq_comm]
  | cons c word ih =>
    cases text with
    | nil => simp [afterWord?]
    | cons d text =>
      rw [afterWord?]
      split
      · next h => simp [ih, h]
      · next h => simp [Ne.symm h]

/-- The parser of one given word. -/
def word (w : List Char) : Parser Unit :=
  token (fun text => (afterWord? w text).map ((), ·)) <| by
    intro text a rest h
    obtain ⟨r, hr, heq⟩ := Option.map_eq_some_iff.mp h
    cases heq
    exact ⟨w, (afterWord?_eq_some_iff.mp hr).symm⟩

/-! ## Combining parsers -/

/-- Apply a function to the value read. -/
def map (f : α → β) (p : Parser α) : Parser β where
  run text :=
    match p.run text with
    | .ok (a, rest) => .ok (f a, rest)
    | .error stop => .error stop
  rest_suffix := by
    intro text b rest h
    split at h
    · next heq =>
      cases h
      exact p.rest_suffix heq
    · cases h
  stop_suffix := by
    intro text stop h
    split at h
    · cases h
    · next heq =>
      cases h
      exact p.stop_suffix heq

/-- Read one value after another. -/
def pair (p : Parser α) (q : Parser β) : Parser (α × β) where
  run text :=
    match p.run text with
    | .error stop => .error stop
    | .ok (a, middle) =>
      match q.run middle with
      | .error stop => .error stop
      | .ok (b, rest) => .ok ((a, b), rest)
  rest_suffix := by
    intro text ab rest h
    split at h
    · cases h
    · next hp =>
      split at h
      · cases h
      · next hq =>
        cases h
        exact (q.rest_suffix hq).trans (p.rest_suffix hp)
  stop_suffix := by
    intro text stop h
    split at h
    · next hp =>
      cases h
      exact p.stop_suffix hp
    · next hp =>
      split at h
      · next hq =>
        cases h
        exact (q.stop_suffix hq).trans (p.rest_suffix hp)
      · cases h

/-- Read with `p`, and with `q` where `p` fails. -/
def orElse (p q : Parser α) : Parser α where
  run text :=
    match p.run text with
    | .ok found => .ok found
    | .error _ => q.run text
  rest_suffix := by
    intro text a rest h
    split at h
    · next hp =>
      cases h
      exact p.rest_suffix hp
    · exact q.rest_suffix h
  stop_suffix := by
    intro text stop h
    split at h
    · cases h
    · exact q.stop_suffix h

/-- Read with `p` and then with `q`, keeping the value of `q`. -/
def skipThen (p : Parser Unit) (q : Parser α) : Parser α :=
  (p.pair q).map Prod.snd

/-- Read with `p` and then with `q`, keeping the value of `p`. -/
def thenSkip (p : Parser α) (q : Parser Unit) : Parser α :=
  (p.pair q).map Prod.fst

/-! ## Layout -/

/-- The characters that may stand between tokens: space, tab, carriage return and line feed. -/
def isLayout (c : Char) : Bool :=
  c == ' ' || c == '\t' || c == '\r' || c == '\n'

/-- Drop the layout at the front of a text. -/
def skipLayout (text : List Char) : List Char :=
  text.dropWhile isLayout

theorem skipLayout_suffix (text : List Char) : skipLayout text <:+ text :=
  List.dropWhile_suffix isLayout

/-- Allow layout before and after what `p` reads. -/
def spaced (p : Parser α) : Parser α where
  run text :=
    match p.run (skipLayout text) with
    | .ok (a, rest) => .ok (a, skipLayout rest)
    | .error stop => .error stop
  rest_suffix := by
    intro text a rest h
    split at h
    · next hp =>
      cases h
      exact ((skipLayout_suffix _).trans (p.rest_suffix hp)).trans (skipLayout_suffix text)
    · cases h
  stop_suffix := by
    intro text stop h
    split at h
    · cases h
    · next hp =>
      cases h
      exact (p.stop_suffix hp).trans (skipLayout_suffix text)

/-- One mark of punctuation with layout around it. -/
def mark (w : List Char) : Parser Unit :=
  spaced (word w)

/-! ## Lists -/

/-- What follows a separator and its layout, at the front of a text. -/
def afterSeparator? (sep : Char) (text : List Char) : Option (List Char) :=
  match skipLayout text with
  | c :: rest => if c = sep then some (skipLayout rest) else none
  | [] => none

theorem afterSeparator?_suffix {sep : Char} {text rest : List Char}
    (h : afterSeparator? sep text = some rest) : rest <:+ text := by
  unfold afterSeparator? at h
  split at h
  · next c tail heq =>
    split at h
    · cases h
      refine (skipLayout_suffix tail).trans ((List.suffix_cons c tail).trans ?_)
      exact heq ▸ skipLayout_suffix text
    · cases h
  · cases h

theorem length_afterSeparator? {sep : Char} {text rest : List Char}
    (h : afterSeparator? sep text = some rest) : rest.length < text.length := by
  unfold afterSeparator? at h
  split at h
  · next c tail heq =>
    split at h
    · cases h
      have htail := (skipLayout_suffix tail).length_le
      have htext := (skipLayout_suffix text).length_le
      rw [heq] at htext
      simp only [List.length_cons] at htext
      omega
    · cases h
  · cases h

/-- The further elements of a list, each after a separator. -/
def more (sep : Char) (elem : Parser α) (text : List Char) : List α × List Char :=
  match _hsep : afterSeparator? sep text with
  | none => ([], text)
  | some next =>
    match _helem : elem.run next with
    | .error _ => ([], text)
    | .ok (a, rest) =>
      let others := more sep elem rest
      (a :: others.1, others.2)
termination_by text.length
decreasing_by
  have hlt := length_afterSeparator? _hsep
  have hle := (elem.rest_suffix _helem).length_le
  omega

theorem more_suffix (sep : Char) (elem : Parser α) (text : List Char) :
    (more sep elem text).2 <:+ text := by
  fun_induction more sep elem text with
  | case1 => exact List.suffix_rfl
  | case2 => exact List.suffix_rfl
  | case3 text next hsep a rest helem others ih =>
    exact ih.trans ((elem.rest_suffix helem).trans (afterSeparator?_suffix hsep))

/-- One or more elements with a separator between them. -/
def listOf (sep : Char) (elem : Parser α) : Parser (List α) where
  run text :=
    match elem.run text with
    | .error stop => .error stop
    | .ok (a, rest) => .ok (a :: (more sep elem rest).1, (more sep elem rest).2)
  rest_suffix := by
    intro text as rest h
    split at h
    · cases h
    · next helem =>
      cases h
      exact (more_suffix sep elem _).trans (elem.rest_suffix helem)
  stop_suffix := by
    intro text stop h
    split at h
    · next helem =>
      cases h
      exact elem.stop_suffix helem
    · cases h

/-- Any number of elements with a separator between them; where no element can be read, the list
is empty and nothing is read. -/
def optionalListOf (sep : Char) (elem : Parser α) : Parser (List α) where
  run text :=
    match (listOf sep elem).run text with
    | .ok found => .ok found
    | .error _ => .ok ([], text)
  rest_suffix := by
    intro text as rest h
    split at h
    · next hlist =>
      cases h
      exact (listOf sep elem).rest_suffix hlist
    · cases h
      exact List.suffix_rfl
  stop_suffix := by
    intro text stop h
    split at h <;> cases h

/-- Read the whole text: what is left over is itself a place where reading stopped. -/
def complete (p : Parser α) (text : List Char) : Except (List Char) α :=
  match p.run text with
  | .error stop => .error stop
  | .ok (a, []) => .ok a
  | .ok (_, stop) => .error stop

end Parser

end Conjunct
