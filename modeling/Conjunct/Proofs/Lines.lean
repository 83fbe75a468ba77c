import Conjunct.Text.Lines
import Mathlib.Data.List.Basic
import Mathlib.Tactic.SplitIfs

/-!
# Lines of encoded texts

A file is cut into lines as a row of bytes, and each line is decoded afterwards. For a file that
holds an encoded text this is the same as cutting the text.

**Theorem (`Line.ofContent_toUTF8`).** The lines of the bytes of a text are the lines of the text.

The two marks are bytes of their own in UTF-8 and are no part of any other character
(`mem_utf8EncodeChar_iff`), so cutting and encoding commute (`splitOn_flatMap`,
`dropFinal_flatMap`). No line of any file holds a line feed (`Line.clean_of_mem_ofContent`).
-/

namespace Conjunct

/-! ## Pieces -/

section Pieces

variable {α β : Type} [DecidableEq α] [DecidableEq β] {as bs piece : List α} {a : α}

theorem splitOn_append (h : a ∉ as) (bs : List α) :
    (as ++ bs).splitOn a = (bs.splitOn a).modifyHead (as ++ ·) := by
  induction as with
  | nil => exact (congrFun List.modifyHead_id _).symm
  | cons c as ih =>
    obtain ⟨hc, has⟩ := not_or.mp (List.mem_cons.not.mp h)
    rw [List.cons_append, List.splitOn_cons_eq_if_modifyHead, if_neg (by simpa using Ne.symm hc),
      ih has, List.modifyHead_modifyHead]
    rfl

theorem length_splitOn (a : α) (as : List α) : (as.splitOn a).length = as.count a + 1 := by
  induction as with
  | nil => rfl
  | cons c as ih =>
    rw [List.splitOn_cons_eq_if_modifyHead, List.count_cons]
    split
    · rw [List.length_cons, ih]
    · rw [List.length_modifyHead, ih]

/-- A piece has elements of the list only, and no separator. -/
theorem of_mem_splitOn (h : piece ∈ as.splitOn a) : ∀ c ∈ piece, c ∈ as ∧ c ≠ a := by
  induction as generalizing piece with
  | nil =>
    cases List.mem_singleton.mp h
    simp
  | cons b as ih =>
    obtain ⟨first, rest, hsplit⟩ := List.exists_cons_of_ne_nil (List.splitOn_ne_nil a as)
    have hpieces : ∀ piece ∈ first :: rest, ∀ c ∈ piece, c ∈ b :: as ∧ c ≠ a :=
      fun piece hpiece c hc => (ih (hsplit ▸ hpiece) c hc).imp (List.mem_cons_of_mem b) id
    rw [List.splitOn_cons_eq_if_modifyHead, hsplit] at h
    split at h
    · rcases List.mem_cons.mp h with rfl | h
      · simp
      · exact hpieces piece h
    · next hb =>
      rcases List.mem_cons.mp h with rfl | h
      · exact List.forall_mem_cons.mpr
          ⟨⟨List.mem_cons_self, by simpa using hb⟩, hpieces first List.mem_cons_self⟩
      · exact hpieces piece (List.mem_cons_of_mem _ h)

/-- Cutting commutes with writing every element out, if the separator is written as a separator
and nothing else has one in it. -/
theorem splitOn_flatMap {f : α → List β} {b : β} (hsep : f a = [b])
    (hplain : ∀ c, c ≠ a → b ∉ f c) (as : List α) :
    (as.flatMap f).splitOn b = (as.splitOn a).map (List.flatMap f) := by
  induction as with
  | nil => rfl
  | cons c as ih =>
    obtain ⟨first, rest, hsplit⟩ := List.exists_cons_of_ne_nil (List.splitOn_ne_nil a as)
    rw [List.flatMap_cons, List.splitOn_cons_eq_if_modifyHead]
    by_cases hc : c = a
    · rw [if_pos (beq_iff_eq.mpr hc), hc, hsep, List.singleton_append,
        List.splitOn_cons_eq_if_modifyHead, if_pos BEq.rfl, ih]
      rfl
    · rw [if_neg (by simpa using hc), splitOn_append (hplain c hc), ih, hsplit]
      rfl

end Pieces

namespace Text

variable {α β : Type} [DecidableEq α] [DecidableEq β] {feed ret : α} {as : List α}

theorem dropFinal_subset (mark : α) (as : List α) : dropFinal mark as ⊆ as := by
  unfold dropFinal
  split
  · exact List.dropLast_subset as
  · exact List.Subset.refl as

theorem dropFinal_of_ne {mark : α} (h : as.getLast? ≠ some mark) : dropFinal mark as = as :=
  if_neg h

theorem dropFinal_flatMap {f : α → List β} {mark : α} {mark' : β} (hmark : f mark = [mark'])
    (hplain : ∀ a, a ≠ mark → mark' ∉ f a) (hne : ∀ a, f a ≠ []) (as : List α) :
    dropFinal mark' (as.flatMap f) = (dropFinal mark as).flatMap f := by
  rcases List.eq_nil_or_concat as with rfl | ⟨init, a, rfl⟩
  · rfl
  · rw [List.concat_eq_append, List.flatMap_append, List.flatMap_singleton]
    by_cases ha : a = mark
    · simp [dropFinal, ha, hmark]
    · have hlast : (init.flatMap f ++ f a).getLast? ≠ some mark' := by
        rw [List.getLast?_append, List.getLast?_eq_some_getLast (hne a), Option.some_or]
        intro h
        exact hplain a ha (Option.some.inj h ▸ List.getLast_mem (hne a))
      rw [dropFinal_of_ne hlast, dropFinal_of_ne (by simp [ha]), List.flatMap_append,
        List.flatMap_singleton]

theorem linesBy_flatMap {f : α → List β} {feed' ret' : β} (hfeed : f feed = [feed'])
    (hfeed' : ∀ a, a ≠ feed → feed' ∉ f a) (hret : f ret = [ret'])
    (hret' : ∀ a, a ≠ ret → ret' ∉ f a) (hne : ∀ a, f a ≠ []) (as : List α) :
    linesBy feed' ret' (as.flatMap f) = (linesBy feed ret as).map (List.flatMap f) := by
  have hsplit : (as.flatMap f).splitOn feed' = (as.splitOn feed).map (List.flatMap f) :=
    splitOn_flatMap hfeed hfeed' as
  have hended : ∀ pieces : List (List α),
      (pieces.map (List.flatMap f)).map (dropFinal ret') =
        (pieces.map (dropFinal ret)).map (List.flatMap f) := by
    intro pieces
    rw [List.map_map, List.map_map]
    exact List.map_congr_left fun piece _ => dropFinal_flatMap hret hret' hne piece
  simp only [linesBy, hsplit, ← List.map_dropLast, hended, List.getLast?_map]
  cases hlast : (as.splitOn feed).getLast? with
  | none => rfl
  | some last =>
    cases last with
    | nil => rfl
    | cons a rest =>
      obtain ⟨b, bs, hb⟩ := List.exists_cons_of_ne_nil (hne a)
      simp [hb]

/-- A line has elements of the list only, and no mark that ends lines. -/
theorem of_mem_linesBy {line : List α} (h : line ∈ linesBy feed ret as) :
    ∀ a ∈ line, a ∈ as ∧ a ≠ feed := by
  have hended : ∀ line ∈ (as.splitOn feed).dropLast.map (dropFinal ret),
      ∀ a ∈ line, a ∈ as ∧ a ≠ feed := by
    intro line hline a ha
    obtain ⟨piece, hmem, rfl⟩ := List.mem_map.mp hline
    exact of_mem_splitOn (List.dropLast_subset _ hmem) a (dropFinal_subset ret piece ha)
  simp only [linesBy] at h
  split at h
  · exact hended line h
  · exact hended line h
  · next rest _ hrest =>
    rcases List.mem_append.mp h with h | h
    · exact hended line h
    · cases List.mem_singleton.mp h
      exact of_mem_splitOn (List.mem_of_getLast? hrest)

section Ended

variable {text : String} {texts : List (List Char)}

/-- A text that is ended by a line feed, in front of such texts. -/
theorem toList_append_of_ended {line : List Char} {front back : String}
    (hfront : front.toList = line ++ ['\n']) (hback : back.toList = texts.flatMap (· ++ ['\n'])) :
    (front ++ back).toList = (line :: texts).flatMap (· ++ ['\n']) := by
  rw [String.toList_append, hfront, hback, List.flatMap_cons]

/-- Texts that are each ended by a line feed are cut into lines one by one. -/
theorem lines_eq_of_ended (htext : text.toList = texts.flatMap (· ++ ['\n'])) :
    lines text = (texts.flatMap (List.splitOn '\n')).map (dropFinal '\r') := by
  have hsplit : text.toList.splitOn '\n' = texts.flatMap (List.splitOn '\n') ++ [[]] := by
    rw [htext]
    clear htext
    induction texts with
    | nil => rfl
    | cons line texts ih =>
      rw [List.flatMap_cons, List.flatMap_cons, List.append_assoc, List.singleton_append,
        List.splitOn_append_cons_self, ih, List.append_assoc]
  simp only [lines, linesBy, hsplit, List.dropLast_concat, List.getLast?_concat]

/-- If no line feed is in them, they are the lines. -/
theorem lines_of_ended (htext : text.toList = texts.flatMap (· ++ ['\n']))
    (hfeed : ∀ line ∈ texts, '\n' ∉ line) (hret : ∀ line ∈ texts, line.getLast? ≠ some '\r') :
    lines text = texts := by
  have hline : ∀ line ∈ texts, line.splitOn '\n' = [line] :=
    fun line hmem => List.splitOn_eq_singleton (hfeed line hmem)
  rw [lines_eq_of_ended htext, List.flatMap_congr hline, List.flatMap_singleton']
  exact (List.map_congr_left fun line hmem => dropFinal_of_ne (hret line hmem)).trans texts.map_id

/-- Each line feed in them makes one line more. -/
theorem length_lines_of_ended (htext : text.toList = texts.flatMap (· ++ ['\n'])) :
    (lines text).length = texts.length + texts.flatten.count '\n' := by
  rw [lines_eq_of_ended htext, List.length_map]
  clear htext
  induction texts with
  | nil => rfl
  | cons line texts ih =>
    rw [List.flatMap_cons, List.length_append, ih, length_splitOn, List.length_cons,
      List.flatten_cons, List.count_append]
    omega

end Ended

end Text

/-! ## Bytes -/

/-- An ASCII byte is in the encoding of the character with its code, and of no other. -/
theorem mem_utf8EncodeChar_iff {b : UInt8} (hb : b.toNat < 128) {c : Char} :
    b ∈ String.utf8EncodeChar c ↔ c.toNat = b.toNat := by
  rw [String.utf8EncodeChar.eq_1]
  show _ ↔ c.val.toNat = b.toNat
  split_ifs with h₁ h₂ h₃
  all_goals simp only [List.mem_cons, List.not_mem_nil, or_false, ← UInt8.toNat_inj,
    UInt8.toNat_ofNat']
  all_goals omega

theorem utf8EncodeChar_of_ascii {b : UInt8} {c : Char} (hb : b.toNat < 128)
    (hc : c.toNat = b.toNat) : String.utf8EncodeChar c = [b] := by
  rw [String.utf8EncodeChar.eq_1, if_pos (by show c.toNat ≤ 127; omega)]
  show [UInt8.ofNat c.toNat] = [b]
  rw [hc, UInt8.ofNat_toNat]

theorem not_mem_utf8EncodeChar {b : UInt8} {mark : Char} (hb : b.toNat < 128)
    (hmark : mark.toNat = b.toNat) {c : Char} (hc : c ≠ mark) : b ∉ String.utf8EncodeChar c := by
  intro hmem
  apply hc
  rw [← Char.toNat_inj, hmark]
  exact (mem_utf8EncodeChar_iff hb).mp hmem

theorem utf8Encode_eq (cs : List Char) :
    cs.utf8Encode = ⟨(cs.flatMap String.utf8EncodeChar).toArray⟩ := by
  rw [List.utf8Encode.eq_1]
  exact ByteArray.ext List.data_toByteArray

namespace Line

/-- The bytes of a text decode to the text. -/
theorem ofBytes_flatMap (cs : List Char) :
    ofBytes (cs.flatMap String.utf8EncodeChar) = .text cs := by
  have hbytes : (⟨(cs.flatMap String.utf8EncodeChar).toArray⟩ : ByteArray) =
      (String.ofList cs).toUTF8 := by
    rw [← utf8Encode_eq]
    exact String.toByteArray_ofList.symm
  have hdecode : String.fromUTF8? (String.ofList cs).toUTF8 = some (String.ofList cs) :=
    dif_pos (String.ofList cs).isValidUTF8
  simp only [ofBytes, hbytes, hdecode, String.toList_ofList]

/-- **The lines of the bytes of a text are the lines of the text.** -/
theorem ofContent_toUTF8 (text : String) :
    ofContent text.toUTF8 = (Text.lines text).map .text := by
  have hbytes : text.toUTF8.data.toList = text.toList.flatMap String.utf8EncodeChar := by
    have hencode : text.toUTF8 = text.toList.utf8Encode := String.utf8Encode_toList.symm
    rw [hencode, utf8Encode_eq]
  have hfeed : '\n'.toNat = (0x0A : UInt8).toNat := rfl
  have hret : '\r'.toNat = (0x0D : UInt8).toNat := rfl
  have hlines : Text.linesBy 0x0A 0x0D (text.toList.flatMap String.utf8EncodeChar) =
      (Text.linesBy '\n' '\r' text.toList).map (List.flatMap String.utf8EncodeChar) :=
    Text.linesBy_flatMap (utf8EncodeChar_of_ascii (by decide) hfeed)
      (fun c hc => not_mem_utf8EncodeChar (by decide) hfeed hc)
      (utf8EncodeChar_of_ascii (by decide) hret)
      (fun c hc => not_mem_utf8EncodeChar (by decide) hret hc)
      (fun c => String.utf8EncodeChar_ne_nil) text.toList
  rw [ofContent, hbytes, hlines, List.map_map, Text.lines]
  exact List.map_congr_left fun cs _ => ofBytes_flatMap cs

/-- A line without a line feed in it. -/
def Clean : Line → Prop
  | text content => '\n' ∉ content
  | undecodable => True

/-- No line of a file has a line feed in it, whatever the bytes are. -/
theorem clean_of_mem_ofContent {content : ByteArray} {l : Line} (h : l ∈ ofContent content) :
    l.Clean := by
  obtain ⟨bytes, hmem, rfl⟩ := List.mem_map.mp h
  cases hdecode : String.fromUTF8? ⟨bytes.toArray⟩ with
  | none => simp only [ofBytes, hdecode, Clean]
  | some decoded =>
    simp only [ofBytes, hdecode, Clean]
    intro hfeed
    have hencode : decoded.toByteArray = ⟨bytes.toArray⟩ := by
      unfold String.fromUTF8? at hdecode
      split at hdecode
      · cases hdecode
        rfl
      · cases hdecode
    have hbytes : bytes = decoded.toList.flatMap String.utf8EncodeChar := by
      rw [← String.utf8Encode_toList, utf8Encode_eq] at hencode
      simpa [eq_comm] using hencode
    have hbyte : (0x0A : UInt8) ∈ bytes := by
      rw [hbytes]
      exact List.mem_flatMap.mpr ⟨'\n', hfeed, (mem_utf8EncodeChar_iff (by decide)).mpr rfl⟩
    exact (Text.of_mem_linesBy hmem _ hbyte).2 rfl

end Line

end Conjunct
