import Conjunct.Proofs.Spelling
import Mathlib.Data.List.DropRight

/-!
# What parsers read

A parser is measured against a relation between texts and values. It is *sound* if each text that it
takes off spells the value that it yields, and it *reads* the relation if it takes off each text
that spells a value, in front of what may follow there.

What may follow is a condition on the first character behind the layout: a name ends where no letter
comes, and a list where no separator comes. A parser that allows layout around what it reads also
takes off the layout in front of what follows. So texts are compared from the first character on
that is no layout.

**Theorem (`complete_spaced_eq_ok_iff`).** A parser that is sound and reads a relation yields, of a
whole text, exactly the values that the text spells.

Soundness goes from the parts of a parser to the whole, whatever the parts are. Reading does not: of
two alternatives the first has to fail on what only the second spells, and an element of a list has
to end where its separator begins (`Reads.run_listOf`).
-/

namespace Conjunct

open Grammar (Spelling IsLayout Around IsMark Listed Bracketed bracketed)

namespace Parser

variable {α β : Type}

/-! ## Runs that succeed -/

section Runs

variable {p p' : Parser α} {q : Parser β} {text rest : List Char} {a : α}

theorem run_token_eq_ok_iff {take? : List Char → Option (α × List Char)}
    {suffix : ∀ {text a rest}, take? text = some (a, rest) → rest <:+ text} :
    (token take? suffix).run text = .ok (a, rest) ↔ take? text = some (a, rest) := by
  simp only [token]
  cases take? text <;> simp

theorem run_token_of_none {take? : List Char → Option (α × List Char)}
    {suffix : ∀ {text a rest}, take? text = some (a, rest) → rest <:+ text}
    (h : take? text = none) : (token take? suffix).run text = .error text := by
  simp only [token, h]

theorem run_word_eq_ok_iff {w : List Char} :
    (word w).run text = .ok ((), rest) ↔ text = w ++ rest := by
  rw [← afterWord?_eq_some_iff]
  simp only [word, token]
  cases afterWord? w text <;> simp

theorem run_map_eq_ok_iff {f : α → β} {b : β} :
    (p.map f).run text = .ok (b, rest) ↔ ∃ a, p.run text = .ok (a, rest) ∧ f a = b := by
  simp only [map]
  cases hp : p.run text with
  | error stop => simp
  | ok found => grind

theorem run_map_of_ok (f : α → β) (h : p.run text = .ok (a, rest)) :
    (p.map f).run text = .ok (f a, rest) := by
  simp only [map, h]

theorem run_map_of_error (f : α → β) {stop : List Char} (h : p.run text = .error stop) :
    (p.map f).run text = .error stop := by
  simp only [map, h]

theorem run_pair_eq_ok_iff {b : β} :
    (p.pair q).run text = .ok ((a, b), rest) ↔
      ∃ middle, p.run text = .ok (a, middle) ∧ q.run middle = .ok (b, rest) := by
  simp only [pair]
  cases hp : p.run text with
  | error stop => simp
  | ok found =>
    obtain ⟨a', middle⟩ := found
    cases hq : q.run middle with
    | error stop => grind
    | ok found' => grind

theorem run_pair_of_error (q : Parser β) {stop : List Char} (h : p.run text = .error stop) :
    (p.pair q).run text = .error stop := by
  simp only [pair, h]

theorem run_skipThen_eq_ok_iff {p : Parser Unit} {b : β} :
    (p.skipThen q).run text = .ok (b, rest) ↔
      ∃ middle, p.run text = .ok ((), middle) ∧ q.run middle = .ok (b, rest) := by
  simp only [skipThen, run_map_eq_ok_iff, Prod.exists, run_pair_eq_ok_iff]
  grind

theorem run_thenSkip_eq_ok_iff {q : Parser Unit} :
    (p.thenSkip q).run text = .ok (a, rest) ↔
      ∃ middle, p.run text = .ok (a, middle) ∧ q.run middle = .ok ((), rest) := by
  simp only [thenSkip, run_map_eq_ok_iff, Prod.exists, run_pair_eq_ok_iff]
  grind

theorem run_skipThen_of_error {p : Parser Unit} (q : Parser β) {stop : List Char}
    (h : p.run text = .error stop) : (p.skipThen q).run text = .error stop :=
  run_map_of_error Prod.snd (run_pair_of_error q h)

theorem run_thenSkip_of_error (q : Parser Unit) {stop : List Char} (h : p.run text = .error stop) :
    (p.thenSkip q).run text = .error stop :=
  run_map_of_error Prod.fst (run_pair_of_error q h)

theorem run_orElse_eq_ok_iff :
    (p.orElse p').run text = .ok (a, rest) ↔
      p.run text = .ok (a, rest) ∨
        (∃ stop, p.run text = .error stop) ∧ p'.run text = .ok (a, rest) := by
  simp only [orElse]
  cases p.run text <;> simp

theorem run_orElse_of_ok (p' : Parser α) (h : p.run text = .ok (a, rest)) :
    (p.orElse p').run text = .ok (a, rest) := by
  simp only [orElse, h]

theorem run_orElse_of_error (p' : Parser α) {stop : List Char} (h : p.run text = .error stop) :
    (p.orElse p').run text = p'.run text := by
  simp only [orElse, h]

theorem run_spaced_eq_ok_iff :
    (spaced p).run text = .ok (a, rest) ↔
      ∃ r, p.run (skipLayout text) = .ok (a, r) ∧ skipLayout r = rest := by
  simp only [spaced]
  cases p.run (skipLayout text) with
  | error stop => simp
  | ok found => grind

theorem run_spaced_of_error {stop : List Char} (h : p.run (skipLayout text) = .error stop) :
    (spaced p).run text = .error stop := by
  simp only [spaced, h]

theorem run_listOf_eq_ok_iff {sep : Char} {as : List α} :
    (listOf sep p).run text = .ok (as, rest) ↔
      ∃ a r, p.run text = .ok (a, r) ∧ (a :: (more sep p r).1, (more sep p r).2) = (as, rest) := by
  simp only [listOf]
  cases p.run text with
  | error stop => simp
  | ok found => grind

theorem run_listOf_of_error {sep : Char} {stop : List Char} (h : p.run text = .error stop) :
    (listOf sep p).run text = .error stop := by
  simp only [listOf, h]

theorem run_optionalListOf_eq_ok_iff {sep : Char} {as : List α} :
    (optionalListOf sep p).run text = .ok (as, rest) ↔
      (listOf sep p).run text = .ok (as, rest) ∨
        (∃ stop, (listOf sep p).run text = .error stop) ∧ as = [] ∧ text = rest := by
  simp only [optionalListOf]
  cases (listOf sep p).run text <;> grind

end Runs

/-! ## Layout -/

section Layout

variable {u text rest s : List Char} {c : Char} {w : List Char}

theorem exists_layout_append_skipLayout (text : List Char) :
    ∃ u, IsLayout u ∧ text = u ++ skipLayout text :=
  ⟨text.takeWhile isLayout, List.all_eq_true.mp List.all_takeWhile,
    List.takeWhile_append_dropWhile.symm⟩

theorem skipLayout_append (hu : IsLayout u) (text : List Char) :
    skipLayout (u ++ text) = skipLayout text :=
  List.dropWhile_append_of_pos hu

theorem skipLayout_cons (hc : isLayout c = false) (text : List Char) :
    skipLayout (c :: text) = c :: text :=
  List.dropWhile_cons_of_neg (by simp [hc])

theorem skipLayout_skipLayout (text : List Char) :
    skipLayout (skipLayout text) = skipLayout text :=
  List.dropWhile_idempotent isLayout text

theorem run_spaced_skipLayout (p : Parser α) (text : List Char) :
    (spaced p).run (skipLayout text) = (spaced p).run text := by
  simp only [spaced, skipLayout_skipLayout]

end Layout

/-! ## Soundness -/

/-- Each text that a parser takes off spells the value that it yields. -/
def Sound (p : Parser α) (R : Spelling α) : Prop :=
  ∀ ⦃text rest a⦄, p.run text = .ok (a, rest) → ∃ t, text = t ++ rest ∧ R t a

section Sound

variable {p p' : Parser α} {R : Spelling α}

theorem sound_token {take? : List Char → Option (α × List Char)}
    {suffix : ∀ {text a rest}, take? text = some (a, rest) → rest <:+ text}
    (h : ∀ {text rest a}, take? text = some (a, rest) → ∃ t, text = t ++ rest ∧ R t a) :
    (token take? suffix).Sound R :=
  fun _ _ _ hrun => h (run_token_eq_ok_iff.mp hrun)

theorem Sound.map {f : α → β} {S : Spelling β} (hp : p.Sound R) (hf : ∀ t a, R t a → S t (f a)) :
    (p.map f).Sound S := by
  intro text rest b h
  obtain ⟨a, ha, rfl⟩ := run_map_eq_ok_iff.mp h
  obtain ⟨t, ht, hR⟩ := hp ha
  exact ⟨t, ht, hf t a hR⟩

theorem Sound.pair {q : Parser β} {S : Spelling β} (hp : p.Sound R) (hq : q.Sound S) :
    (p.pair q).Sound fun t ab => ∃ t₁ t₂, R t₁ ab.1 ∧ S t₂ ab.2 ∧ t = t₁ ++ t₂ := by
  rintro text rest ⟨a, b⟩ h
  obtain ⟨middle, ha, hb⟩ := run_pair_eq_ok_iff.mp h
  obtain ⟨t₁, htext, hR⟩ := hp ha
  obtain ⟨t₂, hmiddle, hS⟩ := hq hb
  exact ⟨t₁ ++ t₂, by rw [htext, hmiddle, List.append_assoc], t₁, t₂, hR, hS, rfl⟩

theorem Sound.orElse (hp : p.Sound R) (hp' : p'.Sound R) : (p.orElse p').Sound R := by
  intro text rest a h
  rcases run_orElse_eq_ok_iff.mp h with h | ⟨-, h⟩
  · exact hp h
  · exact hp' h

theorem Sound.spaced (hp : p.Sound R) : (spaced p).Sound (Around R) := by
  intro text rest a h
  obtain ⟨r, hr, rfl⟩ := run_spaced_eq_ok_iff.mp h
  obtain ⟨core, hcore, hR⟩ := hp hr
  obtain ⟨u, hu, htext⟩ := exists_layout_append_skipLayout text
  obtain ⟨v, hv, hrest⟩ := exists_layout_append_skipLayout r
  refine ⟨u ++ (core ++ v), ?_, u, core, v, hu, hR, hv, rfl⟩
  calc text = u ++ (core ++ r) := by rw [← hcore, ← htext]
    _ = u ++ (core ++ (v ++ skipLayout r)) := by rw [← hrest]
    _ = u ++ (core ++ v) ++ skipLayout r := by simp

theorem sound_word (w : List Char) : (word w).Sound fun t _ => t = w := by
  intro text rest _ h
  exact ⟨w, run_word_eq_ok_iff.mp h, rfl⟩

theorem exists_mark_of_run {w text rest : List Char} (h : (mark w).run text = .ok ((), rest)) :
    ∃ s, text = s ++ rest ∧ IsMark w s :=
  (sound_word w).spaced h

theorem exists_mark_of_afterSeparator? {sep : Char} {text rest : List Char}
    (h : afterSeparator? sep text = some rest) : ∃ s, text = s ++ rest ∧ IsMark [sep] s := by
  obtain ⟨u, hu, htext⟩ := exists_layout_append_skipLayout text
  unfold afterSeparator? at h
  split at h
  · next c tail heq =>
    split at h
    · next hc =>
      cases h
      obtain ⟨v, hv, htail⟩ := exists_layout_append_skipLayout tail
      refine ⟨u ++ ([c] ++ v), ?_, u, [c], v, hu, by rw [hc], hv, rfl⟩
      rw [htext, heq]
      simpa using htail
    · cases h
  · cases h

/-- The further elements of a list belong to the list that an element in front of them begins. -/
theorem exists_listed_more (sep : Char) (hp : p.Sound R) (text : List Char) :
    ∃ t, text = t ++ (more sep p text).2 ∧
      ∀ t₀ a, R t₀ a → Listed sep R (t₀ ++ t) (a :: (more sep p text).1) := by
  fun_induction more sep p text with
  | case1 => exact ⟨[], rfl, fun t₀ a h => by simpa using .single h⟩
  | case2 => exact ⟨[], rfl, fun t₀ a h => by simpa using .single h⟩
  | case3 text next hsep b rest helem others ih =>
    obtain ⟨s, htext, hs⟩ := exists_mark_of_afterSeparator? hsep
    obtain ⟨t₁, hnext, hR⟩ := hp helem
    obtain ⟨t, hrest, hlist⟩ := ih
    refine ⟨s ++ (t₁ ++ t), ?_, fun t₀ a h => .cons h hs (hlist t₁ b hR)⟩
    rw [htext, hnext]
    simpa using hrest

theorem Sound.listOf (hp : p.Sound R) (sep : Char) : (listOf sep p).Sound (Listed sep R) := by
  intro text rest as h
  obtain ⟨a, r, ha, heq⟩ := run_listOf_eq_ok_iff.mp h
  cases heq
  obtain ⟨t₀, htext, hR⟩ := hp ha
  obtain ⟨t, hr, hlist⟩ := exists_listed_more sep hp r
  refine ⟨t₀ ++ t, ?_, hlist t₀ a hR⟩
  rw [htext, List.append_assoc, ← hr]

theorem Sound.between (hp : p.Sound R) :
    (((mark ['(']).skipThen p).thenSkip (mark [')'])).Sound fun t a =>
      ∃ l inner r, IsMark ['('] l ∧ R inner a ∧ IsMark [')'] r ∧ t = l ++ (inner ++ r) := by
  intro text rest a h
  obtain ⟨before, h, hclose⟩ := run_thenSkip_eq_ok_iff.mp h
  obtain ⟨after, hopen, h⟩ := run_skipThen_eq_ok_iff.mp h
  obtain ⟨l, htext, hl⟩ := exists_mark_of_run hopen
  obtain ⟨inner, hafter, hR⟩ := hp h
  obtain ⟨r, hbefore, hr⟩ := exists_mark_of_run hclose
  refine ⟨l ++ (inner ++ r), ?_, l, inner, r, hl, hR, hr, rfl⟩
  rw [htext, hafter, hbefore]
  simp

theorem Sound.optionalListOf (hp : p.Sound R) (sep : Char) :
    (optionalListOf sep p).Sound fun t as => Listed sep R t as ∨ t = [] ∧ as = [] := by
  intro text rest as h
  rcases run_optionalListOf_eq_ok_iff.mp h with h | ⟨-, rfl, rfl⟩
  · obtain ⟨t, htext, hlist⟩ := hp.listOf sep h
    exact ⟨t, htext, .inl hlist⟩
  · exact ⟨[], rfl, .inr ⟨rfl, rfl⟩⟩

theorem Sound.bracketed (hp : p.Sound R) : (bracketed p).Sound (Bracketed (Around R)) := by
  intro text rest as h
  obtain ⟨t, htext, l, inner, r, hl, hinner, hr, rfl⟩ := (hp.spaced.optionalListOf ',').between h
  refine ⟨l ++ (inner ++ r), htext, ?_⟩
  rcases hinner with hlist | ⟨rfl, rfl⟩
  · exact .some hl hlist hr
  · exact .none hl hr

end Sound

/-! ## Reading -/

/-- The first character of a text behind its layout, if there is one, satisfies a condition. -/
def Followed (ok : Char → Prop) (rest : List Char) : Prop :=
  ∀ c ∈ (skipLayout rest).head?, ok c

/-- In front of what may follow, a parser takes off each text that spells a value, up to layout. -/
def Reads (p : Parser α) (R : Spelling α) (ok : Char → Prop) : Prop :=
  ∀ ⦃t rest a⦄, R t a → Followed ok rest →
    ∃ r, p.run (skipLayout (t ++ rest)) = .ok (a, r) ∧ skipLayout r = skipLayout rest

section Reads

variable {p p' : Parser α} {R : Spelling α} {ok ok' : Char → Prop}
  {u v t s rest : List Char} {c sep : Char} {w : List Char} {a : α} {as : List α}

theorem Followed.mono (h : Followed ok rest) (himp : ∀ c, ok c → ok' c) : Followed ok' rest :=
  fun c hc => himp c (h c hc)

theorem followed_append_iff (hu : IsLayout u) : Followed ok (u ++ rest) ↔ Followed ok rest := by
  rw [Followed, Followed, skipLayout_append hu]

/-- What may follow directly, if layout may. -/
theorem Followed.head (h : Followed ok rest) (hlayout : ∀ c, isLayout c = true → ok c) :
    ∀ c ∈ rest.head?, ok c := by
  cases rest with
  | nil => simp
  | cons c rest =>
    intro d hd
    cases hd
    cases hc : isLayout c with
    | true => exact hlayout c hc
    | false => exact h c (by rw [skipLayout_cons hc]; rfl)

/-- All texts that spell a value begin with a character that satisfies a condition and is no
layout. -/
def Begins (R : Spelling α) (ok : Char → Prop) : Prop :=
  ∀ ⦃t a⦄, R t a → ∃ c w, t = c :: w ∧ isLayout c = false ∧ ok c

theorem Begins.mono (hR : Begins R ok) (himp : ∀ c, ok c → ok' c) : Begins R ok' := by
  intro t a h
  obtain ⟨c, w, ht, hc, hok⟩ := hR h
  exact ⟨c, w, ht, hc, himp c hok⟩

theorem exists_head_around (hR : Begins R ok) (h : Around R t a) (rest : List Char) :
    ∃ c, (skipLayout (t ++ rest)).head? = some c ∧ ok c := by
  obtain ⟨u, core, v, hu, hcore, hv, rfl⟩ := h
  obtain ⟨c, w, rfl, hc, hok⟩ := hR hcore
  refine ⟨c, ?_, hok⟩
  rw [List.append_assoc, skipLayout_append hu, List.cons_append, List.cons_append,
    skipLayout_cons hc]
  rfl

theorem followed_around (hR : Begins R ok) (h : Around R t a) (rest : List Char) :
    Followed ok (t ++ rest) := by
  obtain ⟨c, hhead, hok⟩ := exists_head_around hR h rest
  intro d hd
  rw [hhead] at hd
  cases hd
  exact hok

/-- Texts that begin differently are not found at one place. -/
theorem Begins.disjoint {S : Spelling β} {b : β} {rest' : List Char} (hR : Begins R ok)
    (hS : Begins S ok') (hdisjoint : ∀ c, ok c → ¬ ok' c) (ht : Around R t a) (hs : Around S s b) :
    skipLayout (t ++ rest) ≠ skipLayout (s ++ rest') := by
  intro heq
  obtain ⟨c, hc, hok⟩ := exists_head_around hR ht rest
  obtain ⟨d, hd, hok'⟩ := exists_head_around hS hs rest'
  rw [heq, hd] at hc
  cases hc
  exact hdisjoint _ hok hok'

theorem begins_mark (hc : isLayout c = false) :
    Begins (fun core (_ : Unit) => core = c :: w) (· = c) :=
  fun _ _ h => ⟨c, w, h, hc, rfl⟩

theorem followed_mark (hs : IsMark (c :: w) s) (hc : isLayout c = false) (hok : ok c)
    (rest : List Char) : Followed ok (s ++ rest) :=
  (followed_around (begins_mark hc) hs rest).mono fun _ heq => heq ▸ hok

theorem exists_skipLayout_mark (hs : IsMark (c :: w) s) (hc : isLayout c = false)
    (rest : List Char) :
    ∃ r, skipLayout (s ++ rest) = c :: (w ++ r) ∧ skipLayout r = skipLayout rest := by
  obtain ⟨u, core, v, hu, hcore, hv, rfl⟩ := hs
  refine ⟨v ++ rest, ?_, skipLayout_append hv rest⟩
  rw [hcore, List.append_assoc, skipLayout_append hu]
  simp [skipLayout_cons hc]

/-- A bracketed list begins with its bracket. -/
theorem exists_mark_bracketed (h : Bracketed R t as) :
    ∃ l inner, IsMark ['('] l ∧ t = l ++ inner := by
  cases h with
  | none hl hr => exact ⟨_, _, hl, rfl⟩
  | some hl ht hr => exact ⟨_, _, hl, rfl⟩

theorem followed_bracketed (h : Bracketed R t as) (hok : ok '(') (rest : List Char) :
    Followed ok (t ++ rest) := by
  obtain ⟨l, inner, hl, rfl⟩ := exists_mark_bracketed h
  rw [List.append_assoc]
  exact followed_mark hl (by decide) hok _

theorem run_mark (hs : IsMark (c :: w) s) (hc : isLayout c = false) (rest : List Char) :
    (mark (c :: w)).run (s ++ rest) = .ok ((), skipLayout rest) := by
  obtain ⟨r, hr, hrest⟩ := exists_skipLayout_mark hs hc rest
  refine run_spaced_eq_ok_iff.mpr ⟨r, ?_, hrest⟩
  rw [hr]
  exact run_word_eq_ok_iff.mpr rfl

/-- Texts that begin with no layout are read from where they begin. -/
theorem reads_of_run (hR : Begins R ok')
    (h : ∀ ⦃t rest a⦄, R t a → Followed ok rest →
      ∃ r, p.run (t ++ rest) = .ok (a, r) ∧ skipLayout r = skipLayout rest) :
    p.Reads R ok := by
  intro t rest a ht hrest
  obtain ⟨c, w, rfl, hc, -⟩ := hR ht
  rw [List.cons_append, skipLayout_cons hc]
  exact h ht hrest

theorem Reads.run_spaced (hp : p.Reads R ok) (h : Around R t a) (hrest : Followed ok rest) :
    (spaced p).run (skipLayout (t ++ rest)) = .ok (a, skipLayout rest) := by
  obtain ⟨u, core, v, hu, hR, hv, rfl⟩ := h
  obtain ⟨r, hr, heq⟩ := hp hR ((followed_append_iff hv).mpr hrest)
  refine run_spaced_eq_ok_iff.mpr ⟨r, ?_, ?_⟩
  · rw [skipLayout_skipLayout, List.append_assoc, skipLayout_append hu, List.append_assoc]
    exact hr
  · rw [heq, skipLayout_append hv]

theorem afterSeparator?_skipLayout (sep : Char) (text : List Char) :
    afterSeparator? sep (skipLayout text) = afterSeparator? sep text := by
  simp only [afterSeparator?, skipLayout_skipLayout]

theorem afterSeparator?_mark (hs : IsMark [sep] s) (hsep : isLayout sep = false)
    (rest : List Char) : afterSeparator? sep (s ++ rest) = some (skipLayout rest) := by
  obtain ⟨r, hr, hrest⟩ := exists_skipLayout_mark hs hsep rest
  simp [afterSeparator?, hr, hrest]

theorem afterSeparator?_of_followed (h : Followed (· ≠ sep) rest) :
    afterSeparator? sep rest = none := by
  unfold afterSeparator?
  split
  · next c tail heq =>
    have hc : c ≠ sep := h c (by simp [heq])
    simp [hc]
  · rfl

theorem more_of_afterSeparator? {text next : List Char}
    (hnext : afterSeparator? sep text = some next)
    (h : (listOf sep p).run next = .ok (as, rest)) : more sep p text = (as, rest) := by
  obtain ⟨b, r, hb, heq⟩ := run_listOf_eq_ok_iff.mp h
  fun_cases more sep p text with
  | case1 hsep => simp [hsep] at hnext
  | case2 next' hsep stop helem => simp_all
  | case3 next' hsep b' r' helem others => simp_all [others]

theorem more_of_followed (h : Followed (· ≠ sep) rest) :
    more sep p (skipLayout rest) = ([], skipLayout rest) := by
  have hsep : afterSeparator? sep (skipLayout rest) = none := by
    rw [afterSeparator?_skipLayout, afterSeparator?_of_followed h]
  fun_cases more sep p (skipLayout rest) with
  | case1 => rfl
  | case2 next hnext => simp [hsep] at hnext
  | case3 next hnext => simp [hsep] at hnext

/-- A list is read to its end where no separator follows. -/
theorem Reads.run_listOf (hp : p.Reads R ok) (hsep : isLayout sep = false) (hok : ok sep)
    (h : Listed sep (Around R) t as) (hrest : Followed (fun c => c ≠ sep ∧ ok c) rest) :
    (listOf sep (spaced p)).run (skipLayout (t ++ rest)) = .ok (as, skipLayout rest) := by
  induction h with
  | single ha =>
    refine run_listOf_eq_ok_iff.mpr ⟨_, _, hp.run_spaced ha (hrest.mono fun _ h => h.2), ?_⟩
    rw [more_of_followed (hrest.mono fun _ h => h.1)]
  | @cons t s ts a as ha hs _ ih =>
    have hnext : afterSeparator? sep (skipLayout (s ++ (ts ++ rest))) =
        some (skipLayout (ts ++ rest)) := by
      rw [afterSeparator?_skipLayout, afterSeparator?_mark hs hsep]
    refine run_listOf_eq_ok_iff.mpr ⟨a, skipLayout (s ++ (ts ++ rest)), ?_, ?_⟩
    · rw [List.append_assoc, List.append_assoc]
      exact hp.run_spaced ha (followed_mark hs hsep hok _)
    · rw [more_of_afterSeparator? hnext ih]

theorem run_between {l r : List Char} (hl : IsMark ['('] l) (hr : IsMark [')'] r)
    (h : p.run (skipLayout (t ++ (r ++ rest))) = .ok (a, skipLayout (r ++ rest))) :
    (((mark ['(']).skipThen p).thenSkip (mark [')'])).run (l ++ (t ++ r) ++ rest) =
      .ok (a, skipLayout rest) := by
  refine run_thenSkip_eq_ok_iff.mpr ⟨skipLayout (r ++ rest), ?_, ?_⟩
  · refine run_skipThen_eq_ok_iff.mpr ⟨skipLayout (t ++ (r ++ rest)), ?_, h⟩
    rw [List.append_assoc, List.append_assoc]
    exact run_mark hl (by decide) _
  · rw [mark, run_spaced_skipLayout]
    exact run_mark hr (by decide) rest

theorem run_bracketed_skipLayout (p : Parser α) (text : List Char) :
    (bracketed p).run (skipLayout text) = (bracketed p).run text := by
  simp only [bracketed, thenSkip, skipThen, Parser.map, Parser.pair, mark, run_spaced_skipLayout]

/-- A bracketed list is read to its bracket, whatever follows. -/
theorem Reads.run_bracketed (hp : p.Reads R ok) (hcomma : ok ',') (hclose : ok ')')
    (hnone : ∀ text, ∃ stop, p.run (')' :: text) = .error stop) (h : Bracketed (Around R) t as)
    (rest : List Char) :
    (bracketed p).run (skipLayout (t ++ rest)) = .ok (as, skipLayout rest) := by
  rw [run_bracketed_skipLayout]
  cases h with
  | @none l r hl hr =>
    refine run_between (t := []) hl hr ?_
    obtain ⟨inner, hinner, -⟩ := exists_skipLayout_mark hr (by decide) rest
    obtain ⟨stop, hstop⟩ := hnone inner
    refine run_optionalListOf_eq_ok_iff.mpr (.inr ⟨⟨stop, run_listOf_of_error ?_⟩, rfl, rfl⟩)
    refine run_spaced_of_error ?_
    rw [List.nil_append, skipLayout_skipLayout, hinner]
    exact hstop
  | @some l t r _ hl ht hr =>
    refine run_between hl hr (run_optionalListOf_eq_ok_iff.mpr (.inl ?_))
    exact hp.run_listOf (by decide) hcomma ht
      (followed_mark hr (by decide) ⟨by decide, hclose⟩ rest)

/-- Of a whole text, exactly what it spells is read. -/
theorem complete_spaced_eq_ok_iff (hsound : p.Sound R) (hreads : p.Reads R ok) {text : List Char} :
    (spaced p).complete text = .ok a ↔ Around R text a := by
  have hcomplete : (spaced p).complete text = .ok a ↔ (spaced p).run text = .ok (a, []) := by
    unfold complete
    split <;> simp_all
  rw [hcomplete]
  constructor
  · intro h
    obtain ⟨t, ht, hR⟩ := hsound.spaced h
    rwa [ht, List.append_nil]
  · intro h
    have hend : Followed ok [] := by rintro _ ⟨⟩
    have hrun := hreads.run_spaced h hend
    rwa [List.append_nil, run_spaced_skipLayout] at hrun

end Reads

end Parser

end Conjunct
