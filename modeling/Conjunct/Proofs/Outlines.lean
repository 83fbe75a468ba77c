import Conjunct.Proofs.Labels

/-!
# Lines of outlines

**Theorem (`Query.lines_outline`).** The text of an outline has three lines and one for each
operator if and only if no string in the query has a line feed. Then the line of an operator is its
label, with two blanks in front for each level, and the plan can be read back from the text: its
shape and the labels of its operators. Otherwise each line feed in the query's text and in a label
makes one line more.

A plan is read from its last line to its first (`Sketch.push`). What has been read is a row of
plans, and an operator goes on top of those at the front of the row that are one level further in.
The operators of a plan are all further in than what follows the plan, so none goes on top of a
neighbour (`Sketch.foldr_push_listed`).
-/

namespace Conjunct

/-! ## Sketches -/

/-- The shape of a plan, with the labels of its operators. -/
inductive Sketch where
  | leaf (label : String)
  | unary (label : String) (child : Sketch)
  | binary (label : String) (outer inner : Sketch)
  deriving DecidableEq

/-- The sketch of a plan. -/
def Plan.sketch : Plan → Sketch
  | p@(scan ..) => .leaf p.label
  | p@(rows ..) => .leaf p.label
  | p@(select child _) => .unary p.label child.sketch
  | p@(join outer inner _) => .binary p.label outer.sketch inner.sketch
  | p@(project child _) => .unary p.label child.sketch
  | p@(sum child _) => .unary p.label child.sketch

namespace Sketch

/-- The labels with their depths, from the given depth on: each label comes before those below it,
and the outer side of a join before the inner one. -/
def listed (depth : Nat) : Sketch → List (Nat × String)
  | leaf label => [(depth, label)]
  | unary label child => (depth, label) :: child.listed (depth + 1)
  | binary label outer inner =>
    (depth, label) :: (outer.listed (depth + 1) ++ inner.listed (depth + 1))

/-- Put an operator on top of the plans at the front that are one level further in. -/
def push (entry : Nat × String) (row : List (Nat × Sketch)) : List (Nat × Sketch) :=
  let below := row.takeWhile (·.1 = entry.1 + 1)
  let top := match below.map Prod.snd with
    | [] => leaf entry.2
    | [child] => unary entry.2 child
    | outer :: inner :: _ => binary entry.2 outer inner
  (entry.1, top) :: row.dropWhile (·.1 = entry.1 + 1)

variable {depth : Nat} {label : String} {row : List (Nat × Sketch)} {s outer inner : Sketch}

/-- What is not further in stays beside an operator. -/
theorem takeWhile_of_le (hrow : ∀ next ∈ row.head?, next.1 ≤ depth) :
    row.takeWhile (·.1 = depth + 1) = [] ∧ row.dropWhile (·.1 = depth + 1) = row := by
  cases row with
  | nil => exact ⟨rfl, rfl⟩
  | cons next row =>
    have hle : next.1 ≤ depth := hrow next rfl
    have hne : next.1 ≠ depth + 1 := by omega
    simp [hne]

theorem push_leaf (hrow : ∀ next ∈ row.head?, next.1 ≤ depth) :
    push (depth, label) row = (depth, leaf label) :: row := by
  obtain ⟨htake, hdrop⟩ := takeWhile_of_le hrow
  simp [push, htake, hdrop]

theorem push_unary (hrow : ∀ next ∈ row.head?, next.1 ≤ depth) :
    push (depth, label) ((depth + 1, s) :: row) = (depth, unary label s) :: row := by
  obtain ⟨htake, hdrop⟩ := takeWhile_of_le hrow
  simp [push, htake, hdrop]

theorem push_binary (hrow : ∀ next ∈ row.head?, next.1 ≤ depth) :
    push (depth, label) ((depth + 1, outer) :: (depth + 1, inner) :: row) =
      (depth, binary label outer inner) :: row := by
  obtain ⟨htake, hdrop⟩ := takeWhile_of_le hrow
  simp [push, htake, hdrop]

/-- The labels of a plan are read as the plan, in front of plans that are no further in. -/
theorem foldr_push_listed (s : Sketch) (hrow : ∀ next ∈ row.head?, next.1 ≤ depth) :
    (s.listed depth).foldr push row = (depth, s) :: row := by
  induction s generalizing depth row with
  | leaf label => exact push_leaf hrow
  | unary label child ih =>
    have hchild : ∀ next ∈ row.head?, next.1 ≤ depth + 1 :=
      fun next h => Nat.le_succ_of_le (hrow next h)
    rw [listed, List.foldr_cons, ih hchild, push_unary hrow]
  | binary label outer inner ihOuter ihInner =>
    have hinner : ∀ next ∈ row.head?, next.1 ≤ depth + 1 :=
      fun next h => Nat.le_succ_of_le (hrow next h)
    have houter : ∀ next ∈ ((depth + 1, inner) :: row).head?, next.1 ≤ depth + 1 := by
      intro next h
      cases h
      exact Nat.le_refl _
    -- The inner side has been read when the outer one is, and is as far in, so it stays beside it.
    rw [listed, List.foldr_cons, List.foldr_append, ihInner hinner, ihOuter houter,
      push_binary hrow]

end Sketch

theorem Plan.outlineFrom_eq (p : Plan) (depth : Nat) :
    p.outlineFrom depth = p.sketch.listed depth := by
  induction p generalizing depth with
  | scan => rfl
  | rows => rfl
  | select child predicates ih => simp [outlineFrom, sketch, Sketch.listed, ih]
  | join outer inner conditions ihOuter ihInner =>
    simp [outlineFrom, sketch, Sketch.listed, ihOuter, ihInner]
  | project child targets ih => simp [outlineFrom, sketch, Sketch.listed, ih]
  | sum child spec ih => simp [outlineFrom, sketch, Sketch.listed, ih]

/-! ## Texts of outlines -/

namespace Outline

/-- The line that is meant for an operator. -/
def entryLine (entry : Nat × String) : List Char :=
  List.replicate (2 * (entry.1 + 1)) ' ' ++ entry.2.toList

/-- The lines that are meant for an outline. -/
def meantLines (o : Outline) : List (List Char) :=
  "=== EXPLAIN PLAN ===".toList :: ("Query: " ++ o.query).toList :: "Operators:".toList ::
    o.operators.map entryLine

/-- The depth and the label that the line of an operator shows. -/
def readLine (line : List Char) : Nat × String :=
  ((line.takeWhile (· = ' ')).length / 2 - 1, String.ofList (line.dropWhile (· = ' ')))

/-- Read the sketch of a plan from the text of its outline. -/
def readSketch? (text : String) : Option Sketch :=
  match (((Text.lines text).drop 3).map readLine).foldr Sketch.push [] with
  | [(0, s)] => some s
  | _ => none

theorem toList_operatorLine (entry : Nat × String) :
    (operatorLine entry).toList = entryLine entry ++ ['\n'] := by
  simp [operatorLine, entryLine]

theorem toList_render (o : Outline) : o.render.toList = o.meantLines.flatMap (· ++ ['\n']) := by
  have hoperators : (Text.joined "" (o.operators.map operatorLine)).toList =
      (o.operators.map entryLine).flatMap (· ++ ['\n']) := by
    rw [Text.toList_joined_empty, List.flatMap_map, List.flatMap_map]
    exact List.flatMap_congr fun entry _ => toList_operatorLine entry
  have hquery : ("Query: " ++ o.query ++ "\n").toList = ("Query: " ++ o.query).toList ++ ['\n'] :=
    String.toList_append
  have hsplit : o.render = "=== EXPLAIN PLAN ===\n" ++ (("Query: " ++ o.query ++ "\n") ++
      ("Operators:\n" ++ Text.joined "" (o.operators.map operatorLine))) := by
    unfold render
    rw [String.append_assoc, String.append_assoc, String.append_assoc, String.append_assoc,
      String.append_assoc, String.append_assoc]
  rw [hsplit]
  exact Text.toList_append_of_ended (by decide +kernel) <|
    Text.toList_append_of_ended hquery <|
    Text.toList_append_of_ended (by decide +kernel) hoperators

/-- The labels of an outline, one behind the other. -/
def labels (o : Outline) : List Char :=
  o.operators.flatMap fun entry => entry.2.toList

theorem count_entryLines (entries : List (Nat × String)) :
    (entries.flatMap entryLine).count '\n' =
      (entries.flatMap fun entry => entry.2.toList).count '\n' := by
  induction entries with
  | nil => rfl
  | cons entry entries ih =>
    have hentry : (entryLine entry).count '\n' = entry.2.toList.count '\n' := by
      simp [entryLine, List.count_replicate]
    rw [List.flatMap_cons, List.count_append, hentry, ih, List.flatMap_cons, List.count_append]

/-- An outline has a line for each operator, and one more for each line feed in its texts. -/
theorem length_lines_render (o : Outline) :
    (Text.lines o.render).length =
      3 + o.operators.length + (o.query.toList.count '\n' + o.labels.count '\n') := by
  have htitle : "=== EXPLAIN PLAN ===".toList.count '\n' = 0 := by decide
  have hquery : ("Query: " ++ o.query).toList.count '\n' = o.query.toList.count '\n' := by
    rw [String.toList_append, List.count_append]
    exact Nat.zero_add _
  have hoperators : "Operators:".toList.count '\n' = 0 := by decide
  have hfeeds : o.meantLines.flatten.count '\n' =
      o.query.toList.count '\n' + o.labels.count '\n' := by
    rw [meantLines, List.flatten_cons, List.flatten_cons, List.flatten_cons, List.count_append,
      List.count_append, List.count_append, htitle, hquery, hoperators, ← List.flatMap_def,
      count_entryLines, labels]
    omega
  have hlength : o.meantLines.length = 3 + o.operators.length := by
    simp [meantLines]
    omega
  rw [Text.length_lines_of_ended o.toList_render, hlength, hfeeds]

/-- The line of an operator has no line feed, and no carriage return at its end. -/
theorem clean_entryLine {entry : Nat × String} (h : Text.IsLine entry.2) :
    '\n' ∉ entryLine entry ∧ (entryLine entry).getLast? ≠ some '\r' := by
  constructor
  · intro hfeed
    rcases List.mem_append.mp hfeed with hfeed | hfeed
    · exact absurd (List.mem_replicate.mp hfeed).2 (by decide)
    · exact h.oneLine hfeed
  · obtain ⟨-, c, hlast, -⟩ := h.edged
    have hsame : (entryLine entry).getLast? = entry.2.toList.getLast? := by
      rw [entryLine, List.getLast?_append, hlast, Option.some_or]
    rw [hsame]
    exact h.edged.getLast?_ne

/-- The lines of an outline are those that are meant if its texts are lines. -/
theorem lines_render {o : Outline} (hquery : Text.IsLine o.query)
    (hlabels : ∀ entry ∈ o.operators, Text.IsLine entry.2) :
    Text.lines o.render = o.meantLines := by
  have hclean : ∀ text : String, Text.IsLine text →
      '\n' ∉ text.toList ∧ text.toList.getLast? ≠ some '\r' :=
    fun text h => ⟨h.oneLine, h.edged.getLast?_ne⟩
  have hword : Text.IsLine "Query:" := by decide +kernel
  have hline : Text.IsLine ("Query:" ++ " " ++ o.query) := hword.append hquery (by decide +kernel)
  have hlines : ∀ line ∈ o.meantLines, '\n' ∉ line ∧ line.getLast? ≠ some '\r' := by
    intro line hmem
    simp only [meantLines, List.mem_cons] at hmem
    rcases hmem with rfl | rfl | rfl | hmem
    · exact hclean _ (by decide +kernel)
    · exact hclean _ hline
    · exact hclean _ (by decide +kernel)
    · obtain ⟨entry, hentry, rfl⟩ := List.mem_map.mp hmem
      exact clean_entryLine (hlabels entry hentry)
  exact Text.lines_of_ended o.toList_render (fun line h => (hlines line h).1)
    fun line h => (hlines line h).2

theorem readLine_entryLine {entry : Nat × String} (h : Text.IsLine entry.2) :
    readLine (entryLine entry) = entry := by
  obtain ⟨depth, label⟩ := entry
  obtain ⟨⟨⟨c, hhead, hc⟩, -⟩, -⟩ := h
  obtain ⟨rest, hlabel⟩ := List.head?_eq_some_iff.mp hhead
  have hne : c ≠ ' ' := by
    intro heq
    rw [heq] at hc
    exact absurd hc (by decide)
  have hblanks : ∀ d ∈ List.replicate (2 * (depth + 1)) ' ', decide (d = ' ') = true := by
    intro d hd
    rw [(List.mem_replicate.mp hd).2]
    rfl
  have htake : (entryLine (depth, label)).takeWhile (· = ' ') =
      List.replicate (2 * (depth + 1)) ' ' := by
    rw [entryLine, List.takeWhile_append_of_pos hblanks, hlabel]
    simp [hne]
  have hdrop : (entryLine (depth, label)).dropWhile (· = ' ') = label.toList := by
    rw [entryLine, List.dropWhile_append_of_pos hblanks, hlabel]
    simp [hne]
  rw [readLine, htake, hdrop, List.length_replicate, String.ofList_toList]
  have hdepth : 2 * (depth + 1) / 2 - 1 = depth := by omega
  rw [hdepth]

/-- A plan is read from the text of its outline. -/
theorem readSketch?_render {q : Query} {p : Plan} (hquery : Text.IsLine q.render)
    (hlabels : p.Labelled) : readSketch? (ofPlan q p).render = some p.sketch := by
  have hlines : Text.lines (ofPlan q p).render = (ofPlan q p).meantLines :=
    lines_render hquery (hlabels 0)
  have hread : ((p.outlineFrom 0).map entryLine).map readLine = p.outlineFrom 0 := by
    rw [List.map_map]
    exact (List.map_congr_left fun entry h => readLine_entryLine (hlabels 0 entry h)).trans
      (List.map_id _)
  have hrow : (p.sketch.listed 0).foldr Sketch.push [] = [(0, p.sketch)] :=
    Sketch.foldr_push_listed p.sketch nofun
  have hdrop : (ofPlan q p).meantLines.drop 3 = (p.outlineFrom 0).map entryLine := rfl
  rw [readSketch?, hlines, hdrop, hread, p.outlineFrom_eq, hrow]
  rfl

end Outline

namespace Query

variable {store : Storage} {catalog : Catalog} {q : Query} {root : Machine} {text : String}

/-- **An outline has a line for each operator, unless a string breaks one.** -/
theorem lines_outline (hread : read text = .ok q) (hplan : q.plan store catalog = .ok root) :
    (Text.lines (Outline.ofPlan q root.plan).render).length =
      3 + (root.plan.outlineFrom 0).length + (q.render.toList.count '\n' +
        ((root.plan.outlineFrom 0).flatMap fun entry => entry.2.toList).count '\n') ∧
    ((Text.lines (Outline.ofPlan q root.plan).render).length =
        3 + (root.plan.outlineFrom 0).length ↔ ∀ s ∈ q.strings, '\n' ∉ s.toList) ∧
    ((∀ s ∈ q.strings, '\n' ∉ s.toList) →
      Text.lines (Outline.ofPlan q root.plan).render =
        "=== EXPLAIN PLAN ===".toList :: ("Query: " ++ q.render).toList :: "Operators:".toList ::
          (root.plan.outlineFrom 0).map (fun (depth, label) =>
            List.replicate (2 * (depth + 1)) ' ' ++ label.toList) ∧
      Outline.readSketch? (Outline.ofPlan q root.plan).render = some root.plan.sketch) := by
  have hwell := wellFormed_of_read hread
  have hlength := (Outline.ofPlan q root.plan).length_lines_render
  have hgood : (∀ s ∈ q.strings, Text.OneLine s) →
      Text.lines (Outline.ofPlan q root.plan).render = (Outline.ofPlan q root.plan).meantLines ∧
        Outline.readSketch? (Outline.ofPlan q root.plan).render = some root.plan.sketch := by
    intro hone
    have hquery := isLine_render hwell hone
    have hlabels := labelled_of_plan hwell hone hplan
    exact ⟨Outline.lines_render hquery (hlabels 0), Outline.readSketch?_render hquery hlabels⟩
  refine ⟨hlength, ?_, hgood⟩
  constructor
  · intro hcount
    have hfeed : q.render.toList.count '\n' = 0 := by
      have hsame := hlength.symm.trans hcount
      simp only [Outline.ofPlan] at hsame
      omega
    exact (oneLine_render_iff hwell).mp (List.count_eq_zero.mp hfeed)
  · intro hone
    rw [(hgood hone).1]
    simp [Outline.meantLines, Outline.ofPlan]
    omega

/-- The catalog of one relation, with a column of integers and one of strings. -/
def smallStrings : Catalog :=
  ⟨"", ⟨"schema.txt", "", "csv"⟩, [⟨"R", [.int, .string]⟩]⟩

/-- A rule whose string has a line feed. -/
def brokenRule : Query :=
  ⟨⟨"Q", [⟨"x"⟩], none⟩, [.atom ⟨"R", [.var ⟨"x"⟩, .const (.string "a\nb")]⟩]⟩

/-- An outline may have more lines than three and one for each operator. -/
theorem exists_outline_off :
    ∃ q root, read "Q(x) :- R(x, 'a\nb')" = .ok q ∧
      q.plan Catalog.smallStore smallStrings = .ok root ∧
      (Text.lines (Outline.ofPlan q root.plan).render).length ≠
        3 + (root.plan.outlineFrom 0).length := by
  refine ⟨brokenRule, _, by decide +kernel, rfl, ?_⟩
  rw [Outline.length_lines_render]
  decide +kernel

/-- A rule with a string on one line. -/
def plainRule : Query :=
  ⟨⟨"Q", [⟨"x"⟩], none⟩,
    [.atom ⟨"R", [.var ⟨"x"⟩, .var ⟨"y"⟩]⟩, .comparison ⟨.var ⟨"y"⟩, .lt, .const (.string "b")⟩]⟩

/-- The outline of the one rule has the lines that are meant, six of them for three operators, and
the outline of the other has three more, for the three times that the string is written. -/
theorem lines_outline_rules :
    (∃ root, plainRule.plan Catalog.smallStore smallStrings = .ok root ∧
      (Text.lines (Outline.ofPlan plainRule root.plan).render).length = 6 ∧
      Outline.readSketch? (Outline.ofPlan plainRule root.plan).render =
        some (.unary "Project [x]" (.unary "Select R(x, y) [y < 'b']" (.leaf "Scan R(x, y)")))) ∧
    ∃ root, brokenRule.plan Catalog.smallStore smallStrings = .ok root ∧
      (root.plan.outlineFrom 0).length = 3 ∧
      (Text.lines (Outline.ofPlan brokenRule root.plan).render).length = 9 := by
  have hplain : read "Q(x) :- R(x, y), y < 'b'" = .ok plainRule := by decide +kernel
  have hbroken : read "Q(x) :- R(x, 'a\nb')" = .ok brokenRule := by decide +kernel
  constructor
  · obtain ⟨root, hplan, hsketch, hcount⟩ : ∃ root, plainRule.plan Catalog.smallStore smallStrings =
        .ok root ∧ root.plan.sketch =
          .unary "Project [x]" (.unary "Select R(x, y) [y < 'b']" (.leaf "Scan R(x, y)")) ∧
        (root.plan.outlineFrom 0).length = 3 := ⟨_, rfl, rfl, rfl⟩
    obtain ⟨-, hiff, hgood⟩ := lines_outline hplain hplan
    have hone : ∀ s ∈ plainRule.strings, '\n' ∉ s.toList := by decide
    refine ⟨root, hplan, ?_, ?_⟩
    · rw [hiff.mpr hone, hcount]
    · rw [(hgood hone).2, hsketch]
  · obtain ⟨root, hplan, hcount, hfeeds⟩ : ∃ root, brokenRule.plan Catalog.smallStore smallStrings =
        .ok root ∧ (root.plan.outlineFrom 0).length = 3 ∧ brokenRule.render.toList.count '\n' +
          ((root.plan.outlineFrom 0).flatMap fun entry => entry.2.toList).count '\n' = 3 :=
      ⟨_, rfl, rfl, by decide +kernel⟩
    obtain ⟨hlength, -, -⟩ := lines_outline hbroken hplan
    exact ⟨root, hplan, hcount, by rw [hlength, hcount, hfeeds]⟩

end Query

end Conjunct
