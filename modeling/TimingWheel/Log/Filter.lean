import TimingWheel.Log.Rule

/-!
# Log filters

A filter is a list of rules with commas between them. Of the rules about an entry the
most specific one decides whether it is logged, and of several that are as specific the
last one. An entry that no rule is about is not logged.

## Main definitions

- `Log.Filter.read` — the filter that a text stands for, if it is one
- `Log.Filter.ofSetting` — the filter that a setting stands for
- `Log.Filter.admits` — whether an entry is logged

## Main statements

- `Log.Filter.split_of_deciding`, `Log.Filter.deciding_eq_none_iff` — the rule that decides
-/

namespace TimingWheel.Log

abbrev Filter := List Rule

namespace Filter

/-- The filter that logs all entries of the severity `INFO` and above. -/
def plain : Filter := [{ verbosity := .info }]

/-- The filter that a text stands for, if all its rules can be read. Without any rule
only errors are logged. -/
def read (text : String) : Option Filter := do
  let rules ← ((text.splitOn ",").filter (· ≠ "")).mapM Rule.read
  return if rules.isEmpty then [{ verbosity := .error }] else rules

/-- The filter that a setting stands for. A setting that is missing or cannot be read
counts as `info`. -/
def ofSetting (setting : Option String) : Filter := (setting.bind read).getD plain

/-- The rule `r` takes the place of the best one so far. -/
def succeeds (best : Option Rule) (r : Rule) : Bool := best.all fun b => b.yields r

/-- The rule that decides about an entry. -/
def deciding (e : Entry) (f : Filter) : Option Rule :=
  (f.filter (Rule.covers e)).foldl (fun best r => if succeeds best r then some r else best) none

def admits (e : Entry) (f : Filter) : Bool :=
  (f.deciding e).any fun r => r.verbosity.shows e.severity

/-- Going through rules, each of which may take the place of the best one so far, either leaves the
best one where it is, or ends with the last of the most specific rules. -/
theorem foldl_succeeds (rules : List Rule) (best : Option Rule) :
    (rules.foldl (fun best r => if succeeds best r then some r else best) best = best ∧
      ∀ r ∈ rules, succeeds best r = false) ∨
    ∃ before r after, rules = before ++ r :: after ∧
      rules.foldl (fun best r => if succeeds best r then some r else best) best = some r ∧
      succeeds best r = true ∧ (∀ s ∈ before, s.yields r = true) ∧
      ∀ s ∈ after, r.yields s = false := by
  induction rules generalizing best with
  | nil => exact Or.inl ⟨rfl, nofun⟩
  | cons first rest ih =>
    rw [List.foldl_cons]
    by_cases hfirst : succeeds best first = true
    · rw [if_pos hfirst]
      obtain ⟨hbest, hnone⟩ | ⟨before, r, after, hrest, hbest, hyields, hbefore, hafter⟩ :=
        ih (some first)
      · exact Or.inr ⟨[], first, rest, rfl, hbest, hfirst, nofun, hnone⟩
      · refine Or.inr ⟨first :: before, r, after, by rw [hrest]; rfl, hbest, ?_, ?_, hafter⟩
        · cases best with
          | none => rfl
          | some b => exact Rule.yields_trans hfirst hyields
        · exact List.forall_mem_cons.2 ⟨hyields, hbefore⟩
    · rw [if_neg hfirst]
      obtain ⟨hbest, hnone⟩ | ⟨before, r, after, hrest, hbest, hyields, hbefore, hafter⟩ := ih best
      · exact Or.inl ⟨hbest, List.forall_mem_cons.2 ⟨Bool.not_eq_true _ ▸ hfirst, hnone⟩⟩
      · refine Or.inr ⟨first :: before, r, after, by rw [hrest]; rfl, hbest, hyields, ?_, hafter⟩
        -- The best rule does not yield to the first one, so that this one yields to it.
        cases best with
        | none => exact absurd rfl hfirst
        | some b =>
          have hback := (Rule.yields_total b first).resolve_left hfirst
          exact List.forall_mem_cons.2 ⟨Rule.yields_trans hback hyields, hbefore⟩

/-- Of the rules about an entry the most specific one decides, and of several that are as specific
the last one. -/
theorem split_of_deciding {e : Entry} {f : Filter} {r : Rule} (h : f.deciding e = some r) :
    ∃ before after, f.filter (Rule.covers e) = before ++ r :: after ∧
      (∀ s ∈ before, s.yields r = true) ∧ ∀ s ∈ after, r.yields s = false := by
  obtain ⟨hnone, -⟩ | ⟨before, s, after, hsplit, hbest, -, hbefore, hafter⟩ :=
    foldl_succeeds (f.filter (Rule.covers e)) none
  · exact nomatch hnone.symm.trans h
  · obtain rfl : s = r := Option.some.inj (hbest.symm.trans h)
    exact ⟨before, after, hsplit, hbefore, hafter⟩

/-- Some rule decides, unless none is about the entry. -/
theorem deciding_eq_none_iff {e : Entry} {f : Filter} :
    f.deciding e = none ↔ ∀ r ∈ f, r.covers e = false := by
  obtain ⟨hbest, hnone⟩ | ⟨before, r, after, hsplit, hbest, -⟩ :=
    foldl_succeeds (f.filter (Rule.covers e)) none
  · have hempty : f.filter (Rule.covers e) = [] :=
      List.eq_nil_iff_forall_not_mem.2 fun r hr => nomatch hnone r hr
    exact iff_of_true hbest fun r hr => Bool.not_eq_true _ ▸ List.filter_eq_nil_iff.1 hempty r hr
  · have hr : r ∈ f.filter (Rule.covers e) := by simp [hsplit]
    obtain ⟨hmem, hcovers⟩ := List.mem_filter.1 hr
    refine iff_of_false (fun h => nomatch hbest.symm.trans h) fun h => ?_
    exact Bool.false_ne_true ((h r hmem).symm.trans hcovers)

/-- The plain filter logs by severity alone. -/
theorem admits_plain (e : Entry) : plain.admits e = Verbosity.info.shows e.severity := by
  simp [admits, plain, deciding, succeeds, Rule.covers]

end Filter

end TimingWheel.Log
