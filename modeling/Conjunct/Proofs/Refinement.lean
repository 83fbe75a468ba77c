import Conjunct.Proofs.Meaning

/-!
# A machine yields what its plan denotes

**Theorem (`Machine.yields_eq_meaning`).** A machine that has just been put together yields what its
plan denotes. An error about a row names the number of a line of a scanned file, counted from one,
and is what decoding that line says.

The proof goes over the tree. What has to be known of the operators below is that they *replay* what
they denote, from the start and after every reset (`Machine.Fresh.replays`), since a join starts its
inner side again for every outer tuple. Where an operator works step by step, a lemma says what the
steps come to: lines that are counted as they are read are numbered lines, and totals that are kept
up to date are a fold.
-/

namespace Conjunct

/-! ## Operators replay their meanings -/

/-- Reading lines one by one, with a count of the rows, yields the numbered lines. -/
theorem Yield.ofLines_eq_scanned (relation : Relation) (path : Path) (row : Nat)
    (lines : List Line) :
    ofLines relation path row lines =
      results (relation.readLine path)
        ((lines.zipIdx (row + 1)).filter fun line => !line.1.isBlank) := by
  induction lines generalizing row with
  | nil => rfl
  | cons line lines ih =>
    rw [List.zipIdx_cons]
    cases line with
    | undecodable => rfl
    | text content =>
      rw [ofLines]
      split
      · next hblank =>
        rw [ih, List.filter_cons_of_neg (by simp [Line.isBlank, hblank])]
      · next hblank =>
        rw [List.filter_cons_of_pos (by simp [Line.isBlank, hblank]), results, Relation.readLine]
        cases relation.decode (row + 1) content with
        | error e => rfl
        | ok t =>
          dsimp only
          rw [ih]

/-- The steps of a sum over tuples that have all positions are those of the fold. -/
theorem SumSpec.feed_eq_foldlM {spec : SumSpec} {ts : List Tuple} (totals : Totals)
    (hpositions : ∀ t ∈ ts, ∀ i ∈ spec.positions, i < t.length) :
    match ts.foldlM spec.takeIn totals with
    | .ok totals' => Yield.feed spec.accept totals ts = (totals', none)
    | .error e => ∃ totals', Yield.feed spec.accept totals ts = (totals', some e) := by
  induction ts generalizing totals with
  | nil => rfl
  | cons t ts ih =>
    have hrest := fun u hu => hpositions u (List.mem_cons_of_mem t hu)
    have hproject := (Tuple.project?_eq_pick (hpositions t List.mem_cons_self)).1
    rw [List.foldlM_cons, takeIn]
    simp only [Yield.feed, accept]
    cases spec.product t with
    | error e => exact ⟨totals, rfl⟩
    | ok n =>
      rw [positions] at hproject
      dsimp only
      rw [hproject, positions]
      dsimp only
      cases addTo? (t.pick (spec.group.map Prod.snd)) n totals with
      | none => exact ⟨totals, rfl⟩
      | some totals' => exact ih totals' hrest

theorem Yield.sum_eq_summed {spec : SumSpec} {o : Yield}
    (hpositions : ∀ t ∈ o.tuples, ∀ i ∈ spec.positions, i < t.length) :
    o.sum spec = o.summed spec := by
  have hfeed := SumSpec.feed_eq_foldlM spec.initial hpositions
  unfold Yield.sum Yield.summed Yield.drain
  cases hfold : o.tuples.foldlM spec.takeIn spec.initial with
  | error e =>
    rw [hfold] at hfeed
    obtain ⟨totals, hfeed⟩ := hfeed
    rw [hfeed]
  | ok totals =>
    rw [hfold] at hfeed
    dsimp only at hfeed
    rw [hfeed]
    cases o.error? <;> rfl

/-- **A new machine replays what its plan denotes.** -/
theorem Machine.Fresh.replays {store : Storage} {m : Machine} (h : m.Fresh store) :
    m.Replays store (m.plan.meaning store) := by
  induction h with
  | @scan relation path atom m hwidth h =>
    obtain ⟨s, hopen, rfl⟩ := exists_of_map_eq_ok h
    have hreplays := Source.replays_scan relation hopen
    have hlines : store.linesAt path = s.reader.pending store := by
      unfold Source.openScan at hopen
      split at hopen
      · next hreader =>
        cases hopen
        simp [Storage.linesAt, hreader, bind, Except.bind]
      · cases hopen
    simp only [Machine.Replays, Plan.meaning, hlines]
    cases hpending : s.reader.pending store with
    | error e =>
      rw [hpending] at hreplays
      exact hreplays
    | ok lines =>
      rw [hpending] at hreplays
      dsimp only at hreplays
      rw [Yield.ofLines_eq_scanned] at hreplays
      exact hreplays
  | rows hwidth => exact Source.replays_rows _
  | select hchild h ih =>
    obtain ⟨ps, _, rfl⟩ := exists_of_map_eq_ok h
    exact Source.replays_filter ih _
  | join houter hinner conditions ihouter ihinner => exact Source.replays_join ihouter ihinner _
  | @project child m targets hchild h ih =>
    obtain ⟨ps, hps, rfl⟩ := exists_of_map_eq_ok h
    have hdistinct := Source.replays_distinct ih (ps.map Prod.snd)
    have hproject : ∀ t ∈ (child.plan.meaning store).tuples,
        t.project? (ps.map Prod.snd) = some (t.pick (ps.map Prod.snd)) := fun t ht =>
      (Tuple.project?_eq_pick fun i hi =>
        (hchild.hasWidth t ht).symm ▸ Plan.lt_arity_of_locate hps i hi).1
    rw [Yield.distinct_eq_eraseDups hproject] at hdistinct
    exact hdistinct
  | @sum child m group aggregate hchild h ih =>
    obtain ⟨spec, hspec, rfl⟩ := exists_of_map_eq_ok h
    have hsum := Source.replays_sum ih spec
    rw [Yield.sum_eq_summed fun t ht i hi =>
      (hchild.hasWidth t ht).symm ▸ Plan.lt_arity_of_resolveSum hspec i hi] at hsum
    exact hsum

/-! ## Rows at fault -/

theorem Relation.row?_of_decodeFields {relation : String} {row number : Nat} {kinds : List Kind}
    {texts : List (List Char)} {e : EvalError}
    (h : decodeFields (.badField relation row) number kinds texts = .error e) :
    e.row? = some row := by
  induction kinds generalizing number texts with
  | nil =>
    rw [decodeFields.eq_2 _ _ _ _ (by simp)] at h
    cases h
  | cons kind kinds ih =>
    cases texts with
    | nil =>
      rw [decodeFields.eq_2 _ _ _ _ (by simp)] at h
      cases h
    | cons text texts =>
      rw [decodeFields] at h
      split at h
      · cases h
        rfl
      · cases hrest : decodeFields (.badField relation row) (number + 1) kinds texts with
        | error e' =>
          rw [hrest] at h
          cases h
          exact ih hrest
        | ok t =>
          rw [hrest] at h
          cases h

/-- An error of decoding names the row. -/
theorem Relation.row?_of_decode {r : Relation} {row : Nat} {content : List Char} {e : EvalError}
    (h : r.decode row content = .error e) : e.row? = some row := by
  simp only [decode] at h
  split at h
  · exact row?_of_decodeFields h
  · cases h
    rfl

namespace Yield

theorem exists_of_error?_results {α : Type} {f : α → Except EvalError Tuple} {items : List α}
    {e : EvalError} (h : (results f items).error? = some e) : ∃ a ∈ items, f a = .error e := by
  induction items with
  | nil => cases h
  | cons a items ih =>
    rw [results] at h
    split at h
    · obtain ⟨b, hb, heq⟩ := ih h
      exact ⟨b, List.mem_cons_of_mem a hb, heq⟩
    · next e' he =>
      cases h
      exact ⟨a, List.mem_cons_self, he⟩

theorem error?_join {holds : Tuple → Tuple → Bool} {outer inner : Yield} {e : EvalError}
    (h : (join holds outer inner).error? = some e) :
    outer.error? = some e ∨ inner.error? = some e := by
  unfold join at h
  generalize outer.tuples = us at h
  induction us with
  | nil => exact .inl h
  | cons u us ih =>
    rw [List.foldr_cons, andThen] at h
    split at h
    · exact ih h
    · exact .inr h

end Yield

/-- The errors of a sum are not about a row. -/
theorem SumSpec.row?_of_takeIn {spec : SumSpec} {totals : Totals} {t : Tuple} {e : EvalError}
    (h : spec.takeIn totals t = .error e) : e.row? = none := by
  unfold takeIn at h
  split at h
  · next hproduct =>
    cases h
    obtain ⟨p, f, _, hf⟩ := exists_of_foldlM_error hproduct
    unfold multiply at hf
    split at hf
    · next hvalue =>
      cases hf
      unfold factorValue at hvalue
      split at hvalue
      · cases hvalue
      · split at hvalue <;> cases hvalue <;> rfl
    · split at hf <;> cases hf
      rfl
  · split at h <;> cases h
    rfl

/-- An error about a row is what decoding a line says, and names the line by its number in the file
of a scanned relation, counted from one. -/
theorem Plan.exists_line_of_row? {store : Storage} {p : Plan} {e : EvalError} {row : Nat}
    (h : (p.meaning store).error? = some e) (hrow : e.row? = some row) :
    ∃ scan ∈ p.scans, ∃ lines content, store.linesAt scan.2 = .ok lines ∧ 0 < row ∧
      lines[row - 1]? = some (.text content) ∧ scan.1.decode row content = .error e := by
  induction p with
  | scan relation path atom =>
    refine ⟨_, List.mem_singleton_self _, ?_⟩
    simp only [meaning] at h
    cases hlines : store.linesAt path with
    | error e' =>
      rw [hlines] at h
      cases h
      cases hrow
    | ok lines =>
      rw [hlines] at h
      obtain ⟨⟨line, number⟩, hmem, hline⟩ := Yield.exists_of_error?_results h
      have hnumbered := List.mem_zipIdx (List.mem_of_mem_filter hmem)
      cases line with
      | undecodable =>
        cases hline
        cases hrow
      | text content =>
        have hnumber : row = number :=
          Option.some.inj (hrow.symm.trans (relation.row?_of_decode hline))
        subst hnumber
        obtain ⟨hpos, hlt, heq⟩ := hnumbered
        exact ⟨lines, content, rfl, hpos, by rw [List.getElem?_eq_getElem (by omega), heq], hline⟩
  | rows atom tuples => cases h
  | select child predicates ih => exact ih h
  | join outer inner conditions ihouter ihinner =>
    rcases Yield.error?_join h with h | h
    · obtain ⟨scan, hscan, hline⟩ := ihouter h
      exact ⟨scan, List.mem_append_left _ hscan, hline⟩
    · obtain ⟨scan, hscan, hline⟩ := ihinner h
      exact ⟨scan, List.mem_append_right _ hscan, hline⟩
  | project child targets ih => exact ih h
  | sum child spec ih =>
    simp only [meaning, Yield.summed] at h
    split at h
    · next hfold =>
      cases h
      obtain ⟨totals, t, _, htake⟩ := exists_of_foldlM_error hfold
      rw [SumSpec.row?_of_takeIn htake] at hrow
      cases hrow
    · split at h
      · next hchild =>
        cases h
        exact ih hchild
      · cases h

/-! ## New machines -/

/-- **A new machine yields what its plan denotes**, and an error about a row names the line that is
at fault. -/
theorem Machine.yields_eq_meaning {store : Storage} {m : Machine} (h : m.Fresh store) :
    m.yields store = m.plan.meaning store ∧
      (m.collect store).1 = ((m.plan.meaning store).tuples, (m.plan.meaning store).error?) ∧
      ∀ e row, (m.plan.meaning store).error? = some e → e.row? = some row →
        ∃ scan ∈ m.plan.scans, ∃ lines content, store.linesAt scan.2 = .ok lines ∧ 0 < row ∧
          lines[row - 1]? = some (.text content) ∧ scan.1.decode row content = .error e :=
  ⟨h.replays.yields_eq, collect_eq_of_replays h.replays, fun _ _ => Plan.exists_line_of_row?⟩

/-- A file with a row, a blank line and a row whose second field is no integer. -/
def faultyStore : Storage :=
  ⟨[(["R.csv"], .file 0)], #[⟨#[0x31, 0x2C, 0x32, 0x0A, 0x0A, 0x31, 0x2C, 0x78, 0x0A]⟩], []⟩

/-- The scan of the faulty file. -/
def faultyScan (v w : Variable) : Machine :=
  ⟨.scan ⟨"R", [.int, .int]⟩ "R.csv" ⟨"R", [.var v, .var w]⟩, ⟨.unread 0, 0⟩⟩

theorem fresh_faultyScan (v w : Variable) : (faultyScan v w).Fresh faultyStore :=
  @Machine.Fresh.scan _ ⟨"R", [.int, .int]⟩ "R.csv" ⟨"R", [.var v, .var w]⟩ _ rfl rfl

theorem yields_eq_meaning_faulty :
    ∃ m : Machine, m.Fresh faultyStore ∧
      m.yields faultyStore =
        ⟨[[.integer 1]], some (.badField "R" 3 "field 2 'x' is not an int")⟩ ∧
      ∃ scan ∈ m.plan.scans, ∃ lines content, faultyStore.linesAt scan.2 = .ok lines ∧
        lines[2]? = some (.text content) := by
  have hjoin := Machine.Fresh.join (fresh_faultyScan ⟨"x"⟩ ⟨"y"⟩) (fresh_faultyScan ⟨"x"⟩ ⟨"z"⟩) []
  have hfresh := @Machine.Fresh.project _ _ _ [⟨"x"⟩] hjoin rfl
  obtain ⟨hyields, _, hline⟩ := Machine.yields_eq_meaning hfresh
  refine ⟨_, hfresh, hyields.trans (by decide +kernel), ?_⟩
  obtain ⟨scan, hscan, lines, content, hlines, _, hcontent, _⟩ := hline _ 3 rfl rfl
  exact ⟨scan, hscan, lines, content, hlines, hcontent⟩

end Conjunct
