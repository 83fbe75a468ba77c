import Conjunct.Proofs.Lines

/-!
# Edges of texts

Trimming takes the blanks off at both ends of a text. What is left is empty, or it is *edged*
(`Text.Edged`): it begins and ends with a character that is not blank. Joining texts with a
separator keeps their edges, and cutting at the separator takes the joined texts apart again.
-/

namespace Conjunct

namespace Text

/-! ## Edges -/

/-- A text begins and ends with a character that is not blank. -/
def Edged (cs : List Char) : Prop :=
  (∃ c, cs.head? = some c ∧ isBlank c = false) ∧ ∃ c, cs.getLast? = some c ∧ isBlank c = false

/-- A text of nothing but blanks. -/
def IsBlanks (cs : List Char) : Prop :=
  ∀ c ∈ cs, isBlank c = true

namespace Edged

variable {cs ds : List Char}

theorem of_forall (hne : cs ≠ []) (h : ∀ c ∈ cs, isBlank c = false) : Edged cs := by
  refine ⟨⟨cs.head hne, List.head?_eq_some_head hne, h _ (List.head_mem hne)⟩, ?_⟩
  exact ⟨cs.getLast hne, List.getLast?_eq_some_getLast hne, h _ (List.getLast_mem hne)⟩

theorem append (hc : Edged cs) (hd : Edged ds) (mid : List Char) : Edged (cs ++ (mid ++ ds)) := by
  obtain ⟨⟨c, hhead, hc⟩, -⟩ := hc
  obtain ⟨-, d, hlast, hd⟩ := hd
  refine ⟨⟨c, ?_, hc⟩, d, ?_, hd⟩
  · rw [List.head?_append, hhead, Option.some_or]
  · rw [List.getLast?_append, List.getLast?_append, hlast, Option.some_or, Option.some_or]

theorem reverse (h : Edged cs) : Edged cs.reverse := by
  unfold Edged
  rw [List.head?_reverse, List.getLast?_reverse]
  exact ⟨h.2, h.1⟩

theorem dropWhile_append (h : Edged cs) {u : List Char} (hu : IsBlanks u) (rest : List Char) :
    (u ++ (cs ++ rest)).dropWhile isBlank = cs ++ rest := by
  obtain ⟨⟨c, hhead, hc⟩, -⟩ := h
  obtain ⟨tail, rfl⟩ := List.head?_eq_some_iff.mp hhead
  rw [List.dropWhile_append_of_pos hu, List.cons_append]
  exact List.dropWhile_cons_of_neg (by simp [hc])

/-- Blanks around an edged text are trimmed off, and nothing else is. -/
theorem trim_append (h : Edged cs) {u v : List Char} (hu : IsBlanks u) (hv : IsBlanks v) :
    trim (u ++ (cs ++ v)) = cs := by
  have hv' : IsBlanks v.reverse := fun c hc => hv c (List.mem_reverse.mp hc)
  have hback := h.reverse.dropWhile_append hv' []
  rw [List.append_nil] at hback
  rw [trim, h.dropWhile_append hu, List.reverse_append, hback, List.reverse_reverse]

theorem trim_eq (h : Edged cs) : trim cs = cs := by
  have htrim := h.trim_append (u := []) (v := []) (by simp [IsBlanks]) (by simp [IsBlanks])
  simpa using htrim

theorem not_blank (h : Edged cs) : cs.all isBlank = false := by
  obtain ⟨⟨c, hhead, hc⟩, -⟩ := h
  exact List.all_eq_false.mpr ⟨c, List.mem_of_head? hhead, by simp [hc]⟩

/-- A carriage return is blank. -/
theorem getLast?_ne (h : Edged cs) : cs.getLast? ≠ some '\r' := by
  intro hret
  obtain ⟨-, d, hlast, hd⟩ := h
  cases hlast.symm.trans hret
  exact absurd hd (by decide)

end Edged

theorem isBlank_of_head?_dropWhile {cs : List Char} {c : Char}
    (h : (cs.dropWhile isBlank).head? = some c) : isBlank c = false := by
  have hhead := List.head?_dropWhile_not isBlank cs
  rw [h] at hhead
  simpa using hhead

/-- A text is blank, or what is left after trimming is edged and has blanks around it. -/
theorem exists_trim (cs : List Char) :
    IsBlanks cs ∧ trim cs = [] ∨
      ∃ u v, IsBlanks u ∧ IsBlanks v ∧ Edged (trim cs) ∧ cs = u ++ (trim cs ++ v) := by
  obtain ⟨front, hfront⟩ : ∃ front, cs.dropWhile isBlank = front := ⟨_, rfl⟩
  have hcs : cs = cs.takeWhile isBlank ++ front := by
    rw [← hfront, List.takeWhile_append_dropWhile]
  have hu : IsBlanks (cs.takeWhile isBlank) := List.all_eq_true.mp List.all_takeWhile
  obtain ⟨v, hv, hback⟩ : ∃ v, IsBlanks v ∧ front = trim cs ++ v := by
    refine ⟨(front.reverse.takeWhile isBlank).reverse, ?_, ?_⟩
    · intro c hc
      exact List.all_eq_true.mp List.all_takeWhile c (List.mem_reverse.mp hc)
    · rw [trim, hfront, ← List.reverse_append, List.takeWhile_append_dropWhile,
        List.reverse_reverse]
  by_cases hempty : trim cs = []
  · left
    refine ⟨?_, hempty⟩
    rw [hempty, List.nil_append] at hback
    intro c hc
    rw [hcs, hback, List.mem_append] at hc
    exact hc.elim (hu c) (hv c)
  · right
    obtain ⟨c, hc⟩ : ∃ c, (trim cs).head? = some c := ⟨_, List.head?_eq_some_head hempty⟩
    obtain ⟨d, hd⟩ : ∃ d, (trim cs).getLast? = some d := ⟨_, List.getLast?_eq_some_getLast hempty⟩
    refine ⟨_, v, hu, hv, ⟨⟨c, hc, ?_⟩, d, hd, ?_⟩, by rw [← hback, ← hcs]⟩
    · apply isBlank_of_head?_dropWhile
      rw [hfront, hback, List.head?_append, hc, Option.some_or]
    · rw [trim, List.getLast?_reverse] at hd
      exact isBlank_of_head?_dropWhile hd

/-! ## Joined texts -/

section Joined

variable {sep : String} {texts : List String}

/-- Joining is `String.intercalate`, so what is known of the one is known of the other. -/
theorem joined_eq_intercalate (sep : String) (texts : List String) :
    joined sep texts = sep.intercalate texts := by
  fun_induction joined sep texts with
  | case1 => exact String.intercalate_nil.symm
  | case2 text => exact String.intercalate_singleton.symm
  | case3 text next rest ih => rw [ih, String.intercalate_cons_cons]

theorem toList_joined_empty (texts : List String) :
    (joined "" texts).toList = texts.flatMap String.toList := by
  fun_induction joined "" texts with
  | case1 => rfl
  | case2 text => simp
  | case3 text next rest ih => simp [ih]

theorem edged_joined (hne : texts ≠ []) (h : ∀ text ∈ texts, Edged text.toList) :
    Edged (joined sep texts).toList := by
  fun_induction joined sep texts with
  | case1 => exact absurd rfl hne
  | case2 text => exact h text List.mem_cons_self
  | case3 text next rest ih =>
    obtain ⟨hfirst, hrest⟩ := List.forall_mem_cons.mp h
    rw [String.toList_append, String.toList_append, List.append_assoc]
    exact hfirst.append (ih (by simp) hrest) _

/-- Cutting at the separators takes joined texts apart again. -/
theorem splitOn_joined {sep : Char} (hne : texts ≠ []) (h : ∀ text ∈ texts, sep ∉ text.toList) :
    (joined (String.singleton sep) texts).toList.splitOn sep = texts.map String.toList := by
  rw [joined_eq_intercalate, String.toList_intercalate, String.toList_singleton]
  exact List.splitOn_intercalate sep (List.forall_mem_map.mpr h) (by simpa using hne)

theorem mem_joined {c : Char} (h : c ∈ (joined sep texts).toList) :
    c ∈ sep.toList ∨ ∃ text ∈ texts, c ∈ text.toList := by
  fun_induction joined sep texts with
  | case1 => simp at h
  | case2 text => exact .inr ⟨text, List.mem_cons_self, h⟩
  | case3 text next rest ih =>
    rw [String.toList_append, String.toList_append, List.mem_append, List.mem_append] at h
    rcases h with (h | h) | h
    · exact .inr ⟨text, List.mem_cons_self, h⟩
    · exact .inl h
    · exact (ih h).imp_right fun ⟨t, ht, hc⟩ => ⟨t, List.mem_cons_of_mem _ ht, hc⟩

end Joined

end Text

end Conjunct
