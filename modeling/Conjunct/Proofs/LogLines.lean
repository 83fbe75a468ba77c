import Conjunct.Command.Program
import Conjunct.Proofs.Quoting
import Conjunct.Proofs.Sorting

/-!
# Lines of logs

**Theorem (`Record.render_faithful`).** A record is written as one line, whatever its event and its
fields are, and the line is read as the object of the event, the severity and the fields. The order
of the fields does not show.

**Theorem (`Program.lines_reported`).** A run that succeeds reports the lines of its records and
nothing else.

All characters of a line can be printed (`Json.printed_quoteObject`), so the line feed behind it is
the only one; and what is quoted is read (`Json.read?_quoteObject`). The fields of a record are
sorted by their names, which tell them apart if no two are the same (`mergeSort_eq_of_perm`).
-/

namespace Conjunct

namespace Json.Printed

variable {cs : List Char}

theorem not_mem (h : Printed cs) {c : Char} (hc : c.toNat < 0x20) : c ∉ cs := by
  intro hmem
  have hprint := h c hmem
  omega

theorem feed_not_mem (h : Printed cs) : '\n' ∉ cs :=
  h.not_mem (by decide)

theorem getLast?_ne (h : Printed cs) : cs.getLast? ≠ some '\r' :=
  fun hlast => h.not_mem (by decide) (List.mem_of_getLast? hlast)

end Json.Printed

namespace Record

/-- The names and strings that a record is made of: its event, its severity and its fields. -/
def members (r : Record) (elapsed : Nat) : Fields :=
  ("event", r.event) :: ("severity", r.severity.name) :: r.allFields elapsed

variable {r r' : Record} {elapsed elapsed' : Nat}

theorem printed_render (r : Record) (elapsed : Nat) : Json.Printed (r.render elapsed).toList :=
  Json.printed_quoteObject _

theorem lines_render (r : Record) (elapsed : Nat) :
    Text.lines (r.render elapsed ++ "\n") = [(r.render elapsed).toList] := by
  have hprint := r.printed_render elapsed
  apply Text.lines_of_ended
  · simp
  · simpa using hprint.feed_not_mem
  · simpa using hprint.getLast?_ne

/-- A line is read as an object with the members of the record, in some order. -/
theorem read?_render (r : Record) (elapsed : Nat) :
    ∃ ms : Fields, ms.Perm (r.members elapsed) ∧
      Json.read? (r.render elapsed ++ "\n") = some (.object (ms.map Json.ofStrings)) := by
  refine ⟨_, ?_, Json.read?_quoteObject _ String.toList_append (by decide)⟩
  exact ((List.mergeSort_perm _ _).cons _).cons _

theorem render_congr (hdistinct : ((r.allFields elapsed).map Prod.fst).Nodup)
    (hseverity : r'.severity = r.severity) (hevent : r'.event = r.event)
    (hfields : (r'.allFields elapsed').Perm (r.allFields elapsed)) :
    r'.render elapsed' = r.render elapsed := by
  have hname : ∀ a ∈ r.allFields elapsed, ∀ b ∈ r.allFields elapsed, a.1 = b.1 → a = b :=
    fun a ha b hb heq => List.inj_on_of_nodup_map hdistinct ha hb heq
  have hsorted := mergeSort_eq_of_perm hfields.symm hname
  rw [render, render, hsorted, hseverity, hevent]

/-- **Lines of logs are faithful.** If the names that a record is made of are distinct, then the
record is written as one line without control characters, and the line is read as an object with
exactly its event, its severity and its fields. A record with the same fields in another order is
written as the same line. -/
theorem render_faithful (hdistinct : ((r.members elapsed).map Prod.fst).Nodup) :
    Json.Printed (r.render elapsed).toList ∧
    Text.lines (r.render elapsed ++ "\n") = [(r.render elapsed).toList] ∧
    (∃ found, Json.read? (r.render elapsed ++ "\n") = some (.object found) ∧
      found.Perm ((r.members elapsed).map fun m => (some m.1, .string (some m.2))) ∧
      (found.map Prod.fst).Nodup) ∧
    ∀ (r' : Record) (elapsed' : Nat), r'.severity = r.severity → r'.event = r.event →
      (r'.allFields elapsed').Perm (r.allFields elapsed) →
      r'.render elapsed' = r.render elapsed := by
  refine ⟨r.printed_render elapsed, r.lines_render elapsed, ?_, ?_⟩
  · obtain ⟨ms, hperm, hread⟩ := r.read?_render elapsed
    refine ⟨_, hread, hperm.map _, ?_⟩
    have hnames : (ms.map Prod.fst).Nodup := (hperm.map Prod.fst).nodup_iff.mpr hdistinct
    have hfound : (ms.map Json.ofStrings).map Prod.fst = (ms.map Prod.fst).map some := by
      rw [List.map_map, List.map_map]
      rfl
    rw [hfound]
    exact hnames.map fun _ _ heq => Option.some.inj heq
  · intro r' elapsed' hseverity hevent hfields
    have hfield : ((r.allFields elapsed).map Prod.fst).Nodup :=
      (List.nodup_cons.mp (List.nodup_cons.mp hdistinct).2).2
    exact render_congr hfield hseverity hevent hfields

/-- A record whose texts have quotes, a backslash, a newline, a control character and a line
separator; it also tells how long its scope took. -/
def quotesRecord : Record :=
  ⟨.info, "SCAN \"R\"", [("query", "Q(x) :- R(x, 'a\n\\')"), ("at", "\u0001\u2028")], true⟩

/-- The same fields in another order, twelve milliseconds among them. -/
def quotesReordered : Record :=
  ⟨.info, "SCAN \"R\"", [("elapsed_ms", "12"), ("at", "\u0001\u2028"),
    ("query", "Q(x) :- R(x, 'a\n\\')")], false⟩

theorem render_faithful_quotes :
    ((quotesRecord.members 12).map Prod.fst).Nodup ∧ '\n' ∉ (quotesRecord.render 12).toList ∧
      quotesReordered.render 0 = quotesRecord.render 12 ∧
      ∃ found, Json.read? (quotesRecord.render 12 ++ "\n") = some (.object found) ∧
        (some "query", .string (some "Q(x) :- R(x, 'a\n\\')")) ∈ found ∧ found.length = 5 := by
  have hdistinct : ((quotesRecord.members 12).map Prod.fst).Nodup := by decide +kernel
  obtain ⟨hprint, -, ⟨found, hread, hperm, -⟩, hsame⟩ := render_faithful hdistinct
  have hquery : ("query", "Q(x) :- R(x, 'a\n\\')") ∈ quotesRecord.members 12 := by decide +kernel
  exact ⟨hdistinct, hprint.feed_not_mem, hsame quotesReordered 0 rfl rfl (by decide +kernel), found,
    hread, hperm.mem_iff.mpr (List.mem_map_of_mem hquery), hperm.length_eq⟩

end Record

namespace Program

/-- **A run that succeeds reports its records line by line.** -/
theorem lines_reported (s : Session) (elapsed : Nat) :
    Text.lines (conclude none s elapsed).reported =
      s.log.records.map fun r => (r.render elapsed).toList := by
  apply Text.lines_of_ended
  · simp [conclude, Text.toList_joined_empty, Log.lines, List.flatMap_map]
  · intro line hline
    obtain ⟨r, -, rfl⟩ := List.mem_map.mp hline
    exact (r.printed_render elapsed).feed_not_mem
  · intro line hline
    obtain ⟨r, -, rfl⟩ := List.mem_map.mp hline
    exact (r.printed_render elapsed).getLast?_ne

end Program

end Conjunct
