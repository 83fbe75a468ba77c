import Conjunct.Proofs.Origins
import Conjunct.Proofs.Recording
import Conjunct.Proofs.Refinement

/-!
# The columns behind a plan

Each position of a plan's tuples has an origin. Origins are followed down the tree like the positions
that operators look up (`Plan.origins`), and the tuples come from there: they have a field for each
origin, and the field is of its kind.

**Theorem (`Plan.lockstep`).** Whatever is asked of a plan whose operators look up positions of
their schemas only, over whatever files, the tuples of every operator come from its origins. No
operator runs into a missing field, and a sum runs into a string only if one of its factors comes
from a column of strings.

The invariant says this of the tuples that the operators keep in their states, too: the outer tuple
of a join and the results of a sum (`Plan.Tracks`). It needs no assumption about the files: a line
that does not fit the columns of its relation is an error, and no tuple.
-/

namespace Conjunct

/-! ## Scans -/

/-- The errors that operators may hand out. An operator never misses a field, and it meets a value
that is not an integer only if `strings` holds. -/
def EvalError.Harmless (strings : Prop) : EvalError → Prop
  | tupleTooShort _ | termUnresolved .. => False
  | aggregateNotInteger .. => strings
  | _ => True

theorem EvalError.harmless_of_row? {strings : Prop} {e : EvalError} {row : Nat}
    (h : e.row? = some row) : e.Harmless strings := by
  cases e <;> trivial

/-- The lines that a scan has read in are clean. -/
def ScanState.Clean (s : ScanState) : Prop :=
  match s.reader with
  | .lines rest => ∀ l ∈ rest, l.Clean
  | _ => True

namespace Source

theorem allowed_scanLines {strings : Prop} {relation : Relation} {path : Path} (row : Nat)
    {lines : List Line} (hlines : ∀ l ∈ lines, l.Clean) :
    Allowed (Tuple.From relation.origins) (EvalError.Harmless strings)
        (scanLines relation path row lines).1 ∧
      ∀ l ∈ (scanLines relation path row lines).2.2, l.Clean := by
  fun_induction scanLines relation path row lines with
  | case1 => exact ⟨trivial, by simp⟩
  | case2 row rest => exact ⟨trivial, fun l hl => hlines l (List.mem_cons_of_mem _ hl)⟩
  | case3 row line rest _ ih => exact ih fun l hl => hlines l (List.mem_cons_of_mem _ hl)
  | case4 row line rest _ t hdecode =>
    obtain ⟨hline, hrest⟩ := List.forall_mem_cons.mp hlines
    exact ⟨Relation.from_of_decode hline hdecode, hrest⟩
  | case5 row line rest _ e hdecode =>
    exact ⟨EvalError.harmless_of_row? (Relation.row?_of_decode hdecode),
      (List.forall_mem_cons.mp hlines).2⟩

theorem clean_of_openScan {store : Storage} {path : Path} {s : ScanState}
    (h : openScan store path = .ok s) : s.Clean := by
  unfold openScan at h
  split at h
  · next reader hreader =>
    cases h
    obtain ⟨⟨place, node⟩, -, hnode⟩ := exists_of_bind_eq_ok hreader
    cases node with
    | directory =>
      cases hnode
      trivial
    | file number =>
      cases hnode
      trivial
    | device d =>
      cases hnode
      exact fun l hl => by cases hl
  · cases h

/-- The states of one scan, with clean lines. -/
def SameScan (s' s : ScanState) : Prop :=
  s' = s ∧ s.Clean

theorem lockstep_scan (strings : Prop) (store : Storage) (relation : Relation) (path : Path) :
    (scan store relation path).Lockstep (scan store relation path) SameScan
      (Tuple.From relation.origins) (EvalError.Harmless strings) := by
  constructor
  case pull =>
    intro s' s ⟨hs, hclean⟩
    subst hs
    obtain ⟨hanswer, hnext⟩ : Allowed (Tuple.From relation.origins) (EvalError.Harmless strings)
        ((scan store relation path).pull s').1 ∧ ((scan store relation path).pull s').2.Clean := by
      simp only [scan]
      cases hpending : s'.reader.pending store with
      | error e => exact ⟨trivial, hclean⟩
      | ok lines =>
        refine allowed_scanLines s'.row ?_
        cases hreader : s'.reader with
        | directory => simp [hreader, Storage.Reader.pending] at hpending
        | unread number =>
          rw [hreader] at hpending
          cases hpending
          exact fun l hl => Line.clean_of_mem_ofContent hl
        | lines rest =>
          rw [hreader] at hpending
          cases hpending
          simpa only [ScanState.Clean, hreader] using hclean
    exact .same hanswer ⟨rfl, hnext⟩
  case reset =>
    intro s' s ⟨hs, hclean⟩
    subst hs
    simp only [scan]
    cases hopen : openScan store path with
    | ok s => exact .ok ⟨rfl, clean_of_openScan hopen⟩
    | error e =>
      refine .error ?_ ⟨rfl, hclean⟩
      unfold openScan at hopen
      split at hopen <;> cases hopen
      trivial

end Source

/-! ## Plans -/

namespace Operand

/-- The position that an operand looks up. -/
def positions : Operand → List Nat
  | field position => [position]
  | value _ => []

end Operand

namespace Factor

/-- The position that a factor looks up. -/
def positions : Factor → List Nat
  | field position _ => [position]
  | literal _ => []

end Factor

namespace Plan

/-- The origins of a plan's tuples. -/
def origins : Plan → List Origin
  | scan relation _ _ => relation.origins
  | rows _ _ => []
  | select child _ => child.origins
  | join outer inner _ => outer.origins ++ inner.origins
  | project child targets => (targets.map Prod.snd).map (originAt child.origins)
  | sum child spec => spec.positions.map (originAt child.origins) ++ [.total]

/-- The operators right below an operator, each with the positions that are looked up in its
tuples. A selection looks at every position for what its schema requires of it. -/
def inputs : Plan → List (Plan × List Nat)
  | scan .. | rows .. => []
  | select child predicates =>
    [(child, List.range child.schema.arity ++
      predicates.flatMap fun p => p.left.positions ++ p.right.positions)]
  | join outer inner conditions =>
    [(outer, conditions.map JoinCondition.outer), (inner, conditions.map JoinCondition.inner)]
  | project child targets => [(child, targets.map Prod.snd)]
  | sum child spec => [(child, spec.positions ++ spec.factors.flatMap Factor.positions)]

/-- An operator looks up positions of its inputs' schemas only. -/
def Resolved (p : Plan) : Prop :=
  ∀ input ∈ p.inputs, ∀ i ∈ input.2, i < input.1.schema.arity

/-- A plan over declared relations, all of whose operators are resolved. -/
inductive WellTyped (catalog : Catalog) : Plan → Prop
  | scan {relation : Relation} {path : Path} {atom : Atom}
      (hrelation : catalog.relation? atom.relation = some relation)
      (harity : relation.arity = atom.arity) : WellTyped catalog (.scan relation path atom)
  | select {child : Plan} {predicates : List Predicate} (hchild : WellTyped catalog child)
      (hresolved : (Plan.select child predicates).Resolved) :
      WellTyped catalog (.select child predicates)
  | join {outer inner : Plan} {conditions : List JoinCondition} (houter : WellTyped catalog outer)
      (hinner : WellTyped catalog inner) (hresolved : (Plan.join outer inner conditions).Resolved) :
      WellTyped catalog (.join outer inner conditions)
  | project {child : Plan} {targets : List (Variable × Nat)} (hchild : WellTyped catalog child)
      (hresolved : (Plan.project child targets).Resolved) :
      WellTyped catalog (.project child targets)
  | sum {child : Plan} {spec : SumSpec} (hchild : WellTyped catalog child)
      (hresolved : (Plan.sum child spec).Resolved) : WellTyped catalog (.sum child spec)

/-- A factor of a sum comes from a column of strings. -/
def SumsString : Plan → Prop
  | scan .. | rows .. => False
  | select child _ | project child _ => child.SumsString
  | join outer inner _ => outer.SumsString ∨ inner.SumsString
  | sum child spec => child.SumsString ∨ ∃ position term, .field position term ∈ spec.factors ∧
      (originAt child.origins position).kind? = some .string

variable {catalog : Catalog} {p : Plan}

theorem WellTyped.length_origins (h : p.WellTyped catalog) :
    p.origins.length = p.schema.arity := by
  induction h with
  | @scan relation _ _ _ harity =>
    rw [origins, Relation.origins, List.length_map, List.length_range, harity]
    rfl
  | select _ _ ih => exact ih
  | join _ _ _ ihouter ihinner =>
    rw [origins, List.length_append, ihouter, ihinner]
    exact List.length_append.symm
  | project _ _ _ => simp [origins, schema, Atom.arity]
  | sum _ _ _ => simp [origins, schema, Atom.arity, SumSpec.schema, SumSpec.positions]

theorem declared_originAt {os : List Origin} (h : ∀ o ∈ os, o.Declared catalog) (i : Nat) :
    (originAt os i).Declared catalog := by
  unfold originAt
  cases hi : os[i]? with
  | none => trivial
  | some o => exact h o (List.mem_of_getElem? hi)

theorem WellTyped.declared (h : p.WellTyped catalog) : ∀ o ∈ p.origins, o.Declared catalog := by
  induction h with
  | @scan relation path atom hrelation _ =>
    intro o ho
    obtain ⟨i, hi, rfl⟩ := List.mem_map.mp ho
    have hname : relation.name = atom.relation := by simpa using List.find?_some hrelation
    exact ⟨hname ▸ hrelation, List.mem_range.mp hi⟩
  | select _ _ ih => exact ih
  | join _ _ _ ihouter ihinner =>
    exact fun o ho => (List.mem_append.mp ho).elim (ihouter o) (ihinner o)
  | project _ _ ih =>
    intro o ho
    obtain ⟨i, -, rfl⟩ := List.mem_map.mp ho
    exact declared_originAt ih i
  | sum _ _ ih =>
    intro o ho
    rcases List.mem_append.mp ho with ho | ho
    · obtain ⟨i, -, rfl⟩ := List.mem_map.mp ho
      exact declared_originAt ih i
    · cases List.mem_singleton.mp ho
      trivial

end Plan

/-! ## Sums -/

namespace SumSpec

variable {spec : SumSpec} {origins : List Origin} {strings : Prop} {t : Tuple} {e : EvalError}

/-- The totals of a sum are of groups that come from the origins of its variables. -/
def GroupsFrom (spec : SumSpec) (origins : List Origin) (totals : Totals) : Prop :=
  ∀ p ∈ totals, p.1.From (spec.positions.map (originAt origins))

theorem groupsFrom_initial : spec.GroupsFrom origins spec.initial := by
  intro p hp
  unfold initial at hp
  split at hp
  · next hgroup =>
    cases List.mem_singleton.mp hp
    rw [positions, hgroup]
    exact .nil
  · cases hp

theorem harmless_of_factorValue {f : Factor} (hf : f ∈ spec.factors) (ht : t.From origins)
    (hpositions : ∀ i ∈ f.positions, i < origins.length)
    (hstrings : (∃ position term, .field position term ∈ spec.factors ∧
      (originAt origins position).kind? = some .string) → strings)
    (h : spec.factorValue t f = .error e) : e.Harmless strings := by
  cases f with
  | literal n => cases h
  | field position term =>
    obtain ⟨c, hc, hkind, -⟩ := ht.exists_getElem? (hpositions position List.mem_cons_self)
    cases c with
    | integer n =>
      simp only [factorValue, hc] at h
      cases h
    | string text =>
      simp only [factorValue, hc] at h
      cases h
      exact hstrings ⟨position, term, hf, hkind⟩

theorem harmless_of_product (ht : t.From origins)
    (hpositions : ∀ f ∈ spec.factors, ∀ i ∈ f.positions, i < origins.length)
    (hstrings : (∃ position term, .field position term ∈ spec.factors ∧
      (originAt origins position).kind? = some .string) → strings)
    (h : spec.product t = .error e) : e.Harmless strings := by
  obtain ⟨n, f, hf, hmultiply⟩ := exists_of_foldlM_error h
  unfold multiply at hmultiply
  split at hmultiply
  · next hvalue =>
    cases hmultiply
    exact harmless_of_factorValue hf ht (hpositions f hf) hstrings hvalue
  · split at hmultiply <;> cases hmultiply
    trivial

/-- Taking in a tuple keeps the groups in order, and does no harm. -/
theorem groupsFrom_accept {totals : Totals} (htotals : spec.GroupsFrom origins totals)
    (ht : t.From origins) (hgroup : ∀ i ∈ spec.positions, i < origins.length)
    (hfactors : ∀ f ∈ spec.factors, ∀ i ∈ f.positions, i < origins.length)
    (hstrings : (∃ position term, .field position term ∈ spec.factors ∧
      (originAt origins position).kind? = some .string) → strings) :
    spec.GroupsFrom origins (spec.accept totals t).1 ∧
      ∀ e, (spec.accept totals t).2 = some e → e.Harmless strings := by
  obtain ⟨group, hproject, hfrom⟩ := ht.project? hgroup
  rw [positions] at hproject
  unfold accept
  cases hproduct : spec.product t with
  | error e =>
    refine ⟨htotals, fun e' he' => ?_⟩
    cases he'
    exact harmless_of_product ht hfactors hstrings hproduct
  | ok n =>
    simp only [hproject]
    cases hadd : addTo? group n totals with
    | none =>
      refine ⟨htotals, fun e' he' => ?_⟩
      cases he'
      trivial
    | some totals' =>
      refine ⟨fun p hp => ?_, by simp⟩
      rcases mem_addTo? hadd p hp with hp | ⟨q, hq, hqp⟩
      · exact hp ▸ hfrom
      · exact hqp ▸ htotals q hq

theorem from_of_mem_results {totals : Totals} (htotals : spec.GroupsFrom origins totals) :
    ∀ t ∈ results totals, t.From (spec.positions.map (originAt origins) ++ [.total]) := by
  intro t ht
  obtain ⟨⟨group, n⟩, hmem, rfl⟩ := List.mem_map.mp ht
  exact (htotals _ hmem).append (.cons ⟨rfl, trivial⟩ .nil)

end SumSpec

/-! ## Lockstep -/

namespace Plan

variable {catalog : Catalog} {p : Plan} {strings : Prop}

open Source in
/-- The states of a recorded plan and of the plan itself, while all is in order: every record has
tuples from the origins of its operator only, and errors without harm. -/
def Tracks (strings : Prop) : (p : Plan) → p.RecordState → p.State → Prop
  | scan relation _ _ =>
    WithRecord SameScan (Tuple.From relation.origins) (EvalError.Harmless strings)
  | rows .. => fun _ _ => False
  | select child _ =>
    WithRecord (child.Tracks strings) (Tuple.From child.origins) (EvalError.Harmless strings)
  | join outer inner _ =>
    WithRecord
      (SameLoop (outer.Tracks strings) (inner.Tracks strings) (Tuple.From outer.origins))
      (Tuple.From (outer.origins ++ inner.origins)) (EvalError.Harmless strings)
  | project child targets =>
    WithRecord (Beside (child.Tracks strings))
      (Tuple.From ((targets.map Prod.snd).map (originAt child.origins)))
      (EvalError.Harmless strings)
  | sum child spec =>
    WithRecord
      (SameResults (child.Tracks strings)
        (Tuple.From (spec.positions.map (originAt child.origins) ++ [.total])))
      (Tuple.From (spec.positions.map (originAt child.origins) ++ [.total]))
      (EvalError.Harmless strings)

/-- **The tuples of a plan come from its origins**, and its errors do no harm, from states on that
are in order; and all stays in order. -/
theorem lockstep (h : p.WellTyped catalog) (hstrings : p.SumsString → strings) (store : Storage) :
    (p.recorded store).Lockstep (p.source store) (p.Tracks strings) (Tuple.From p.origins)
      (EvalError.Harmless strings) := by
  induction h with
  | @scan relation path atom _ _ =>
    exact (Source.lockstep_scan strings store relation path).recorded
  | @select child predicates _ _ ih =>
    exact ((ih hstrings).filter (accepts child.schema predicates)).recorded
  | @join outer inner conditions _ _ _ ihouter ihinner =>
    have houter := ihouter fun h => hstrings (.inl h)
    have hinner := ihinner fun h => hstrings (.inr h)
    exact (houter.join hinner (fun t u ht hu => ht.append hu) (pairs conditions)).recorded
  | @project child targets hchild hresolved ih =>
    have hpositions : ∀ i ∈ targets.map Prod.snd, i < child.origins.length := by
      rw [hchild.length_origins]
      exact hresolved _ List.mem_cons_self
    exact ((ih hstrings).distinct fun t ht => ht.project? hpositions).recorded
  | @sum child spec hchild hresolved ih =>
    have hpositions := hresolved _ List.mem_cons_self
    rw [← hchild.length_origins] at hpositions
    have hgroup : ∀ i ∈ spec.positions, i < child.origins.length :=
      fun i hi => hpositions i (List.mem_append_left _ hi)
    have hfactors : ∀ f ∈ spec.factors, ∀ i ∈ f.positions, i < child.origins.length :=
      fun f hf i hi => hpositions i (List.mem_append_right _ (List.mem_flatMap.mpr ⟨f, hf, hi⟩))
    have haccept := fun totals t (htotals : spec.GroupsFrom child.origins totals)
      (ht : Tuple.From child.origins t) =>
        SumSpec.groupsFrom_accept htotals ht hgroup hfactors fun h => hstrings (.inr h)
    refine Source.Lockstep.recorded (Source.Lockstep.sum (ih fun h => hstrings (.inl h))
      SumSpec.groupsFrom_initial (fun totals t htotals ht => (haccept totals t htotals ht).1)
      (fun totals t e htotals ht => (haccept totals t htotals ht).2 e)
      fun totals htotals => SumSpec.from_of_mem_results htotals)

/-! ## Records -/

/-- All that is in the records is in order. -/
theorem Tracks.allowed {s' : p.RecordState} {s : p.State} (h : p.Tracks strings s' s) :
    ∀ entry ∈ p.records s', ∀ answer ∈ entry.2,
      Source.Allowed (Tuple.From entry.1.origins) (EvalError.Harmless strings) answer := by
  induction p with
  | scan relation path atom =>
    intro entry hentry
    cases List.mem_singleton.mp hentry
    exact h.2
  | rows atom tuples => exact h.elim
  | select child predicates ih =>
    exact List.forall_mem_cons.mpr ⟨h.2, ih h.1⟩
  | join outer inner conditions ihouter ihinner =>
    refine List.forall_mem_cons.mpr ⟨h.2, fun entry hentry => ?_⟩
    rcases List.mem_append.mp hentry with hentry | hentry
    · exact ihouter h.1.outer entry hentry
    · exact ihinner h.1.inner entry hentry
  | project child targets ih => exact List.forall_mem_cons.mpr ⟨h.2, ih h.1.1⟩
  | sum child spec ih => exact List.forall_mem_cons.mpr ⟨h.2, ih h.1.below⟩

theorem exists_mem_records (p : Plan) (s : p.RecordState) : ∃ record, (p, record) ∈ p.records s := by
  cases p with
  | scan relation path atom => exact ⟨_, List.mem_cons_self⟩
  | rows atom tuples => exact ⟨_, List.mem_cons_self⟩
  | select child predicates => exact ⟨_, List.mem_cons_self⟩
  | join outer inner conditions => exact ⟨_, List.mem_cons_self⟩
  | project child targets => exact ⟨_, List.mem_cons_self⟩
  | sum child spec => exact ⟨_, List.mem_cons_self⟩

theorem WellTyped.resolved (h : p.WellTyped catalog) : p.Resolved := by
  cases h with
  | scan => exact fun input hinput => by cases hinput
  | select _ hresolved => exact hresolved
  | join _ _ hresolved => exact hresolved
  | project _ hresolved => exact hresolved
  | sum _ hresolved => exact hresolved

theorem WellTyped.of_mem_records (h : p.WellTyped catalog) (s : p.RecordState) :
    ∀ entry ∈ p.records s, entry.1.WellTyped catalog := by
  induction h with
  | scan hrelation harity =>
    intro entry hentry
    cases List.mem_singleton.mp hentry
    exact .scan hrelation harity
  | select hchild hresolved ih =>
    exact List.forall_mem_cons.mpr ⟨.select hchild hresolved, ih s.1⟩
  | join houter hinner hresolved ihouter ihinner =>
    refine List.forall_mem_cons.mpr ⟨.join houter hinner hresolved, fun entry hentry => ?_⟩
    exact (List.mem_append.mp hentry).elim (ihouter s.1.outer entry) (ihinner s.1.inner entry)
  | project hchild hresolved ih =>
    exact List.forall_mem_cons.mpr ⟨.project hchild hresolved, ih s.1.1⟩
  | sum hchild hresolved ih => exact List.forall_mem_cons.mpr ⟨.sum hchild hresolved, ih s.1.1⟩

/-- With every operator, its inputs have records too. -/
def WithInputs (entries : List (Plan × List Pull)) : Prop :=
  ∀ entry ∈ entries, ∀ input ∈ entry.1.inputs, ∃ record, (input.1, record) ∈ entries

theorem WithInputs.cons {entries : List (Plan × List Pull)} {record : List Pull}
    (h : WithInputs entries)
    (hinputs : ∀ input ∈ p.inputs, ∃ record, (input.1, record) ∈ entries) :
    WithInputs ((p, record) :: entries) := by
  intro entry hentry input hinput
  have hfound : ∃ record, (input.1, record) ∈ entries := by
    rcases List.mem_cons.mp hentry with rfl | hentry
    · exact hinputs input hinput
    · exact h entry hentry input hinput
  obtain ⟨found, hmem⟩ := hfound
  exact ⟨found, List.mem_cons_of_mem _ hmem⟩

theorem WithInputs.append {entries entries' : List (Plan × List Pull)} (h : WithInputs entries)
    (h' : WithInputs entries') : WithInputs (entries ++ entries') := by
  intro entry hentry input hinput
  rcases List.mem_append.mp hentry with hentry | hentry
  · obtain ⟨record, hmem⟩ := h entry hentry input hinput
    exact ⟨record, List.mem_append_left _ hmem⟩
  · obtain ⟨record, hmem⟩ := h' entry hentry input hinput
    exact ⟨record, List.mem_append_right _ hmem⟩

theorem withInputs_records (p : Plan) (s : p.RecordState) : WithInputs (p.records s) := by
  have hsingle : ∀ {child : Plan} {positions : List Nat} (s : child.RecordState),
      ∀ input ∈ [(child, positions)], ∃ record, (input.1, record) ∈ child.records s := by
    intro child positions s input hinput
    cases List.mem_singleton.mp hinput
    exact exists_mem_records child s
  induction p with
  | scan relation path atom =>
    intro entry hentry input hinput
    cases List.mem_singleton.mp hentry
    cases hinput
  | rows atom tuples =>
    intro entry hentry input hinput
    cases List.mem_singleton.mp hentry
    cases hinput
  | select child predicates ih => exact (ih s.1).cons (hsingle s.1)
  | join outer inner conditions ihouter ihinner =>
    refine ((ihouter s.1.outer).append (ihinner s.1.inner)).cons fun input hinput => ?_
    rcases List.mem_cons.mp hinput with rfl | hinput
    · obtain ⟨record, hmem⟩ := exists_mem_records outer s.1.outer
      exact ⟨record, List.mem_append_left _ hmem⟩
    · obtain ⟨record, hmem⟩ := hsingle s.1.inner input hinput
      exact ⟨record, List.mem_append_right _ hmem⟩
  | project child targets ih => exact (ih s.1.1).cons (hsingle s.1.1)
  | sum child spec ih => exact (ih s.1.1).cons (hsingle s.1.1)

end Plan

end Conjunct
