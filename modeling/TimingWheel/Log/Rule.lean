import TimingWheel.Log.Pattern.Basic
import TimingWheel.Log.Verbosity
import TimingWheel.Text.Bytes

/-!
# Rules of a log filter

A rule gives a verbosity and says which entries it is about. Written out in full it is
`target[span{field=pattern}]=verbosity`, and most of it may be missing:

- a target: the rule is about entries whose target begins with it;
- a span: it is about entries made within a span of this name;
- a field: it is about entries that have a field of this name, or, with a pattern, about
  entries within a span that has a field of this name with a value that fits.

No span is ever opened here, so that a rule which asks for one is about no entry.

A rule that is just a word is read as a verbosity if it names one and as a target
otherwise. Without a verbosity a rule shows everything. The marks of a rule are looked
for in the text without the blanks at its ends. Their places are counted from the first
character that is not blank, but the parts between them are cut out of the whole text.
A rule that ends with a word or a verbosity therefore takes in the blanks behind it, and
blanks in front shift all parts.

## Main definitions

- `Log.FieldTest`, `Log.Rule` — a rule and what it asks of a field
- `Log.Rule.read` — the rule that a text stands for, if it is one
- `Log.Rule.covers` — the rule is about an entry
- `Log.Rule.yields` — another rule is as specific or more

## Main statements

- `Log.Rule.yields_total`, `Log.Rule.yields_trans` — how specific a rule is can be compared
-/

namespace TimingWheel.Log

structure FieldTest where
  name : String
  pattern : Option String := none
deriving DecidableEq, Repr

/-- What a text asks of a field: `name` or `name=pattern`. All from a second equals sign
on is ignored. -/
def FieldTest.read (text : String) : Option FieldTest :=
  match text.splitOn "=" with
  | [] => none
  | [name] => some { name }
  | name :: pattern :: _ =>
    if Pattern.isReadable pattern then some { name, pattern := some pattern } else none

structure Rule where
  target : Option String := none
  span : Option String := none
  field : Option FieldTest := none
  verbosity : Verbosity := .trace
deriving DecidableEq, Repr

namespace Rule

/-! ### Reading -/

/-- Where in a rule its reader is. -/
inductive Place where
  | start
  /-- In a word at the beginning, which is a target or a verbosity. -/
  | word
  /-- After an opening bracket; the name of the span begins at `start`. -/
  | span (start : Nat)
  /-- After an opening brace; the field begins at `start`. -/
  | field (start : Nat)
  | fieldEnd
  | spanEnd
  /-- After the equals sign; the verbosity begins at `start`. -/
  | verbosity (start : Nat)
deriving DecidableEq, Repr

/-- A word at the beginning of a rule may begin with this character. -/
def isOpening (c : Char) : Bool := ['-', ':', '_'].contains c || Text.isAlphanumeric c

/-- A character of a rule is read, which has the place `i`. The parts of the rule are cut
out of `text`. -/
def step (text : List Char) (i : Nat) (c : Char) : Place × Rule → Option (Place × Rule)
  | (.start, r) =>
    if c = '[' then some (.span (i + 1), r)
    else if isOpening c then some (.word, r)
    else none
  | (.word, r) =>
    if c = '=' then do return (.verbosity (i + 1), { r with target := ← Text.cut text 0 i })
    else if c = '[' then do return (.span (i + 1), { r with target := ← Text.cut text 0 i })
    else some (.word, r)
  | (.span start, r) =>
    if c = ']' then do return (.spanEnd, { r with span := ← Text.cut text start i })
    else if c = '{' then do
      let span ← Text.cut text start i
      return (.field (i + 1), { r with span := if span = "" then none else span })
    else some (.span start, r)
  | (.field start, r) =>
    if c = '}' then do
      let field ← Text.cut text start i
      if field = "" then none
      else return (.fieldEnd, { r with field := ← FieldTest.read field })
    else some (.field start, r)
  | (.fieldEnd, r) => if c = ']' then some (.spanEnd, r) else none
  | (.spanEnd, r) => if c = '=' then some (.verbosity (i + 1), r) else none
  | (.verbosity start, r) => some (.verbosity start, r)

/-- The rule at the end of `text`. -/
def finish (text : List Char) : Place × Rule → Option Rule
  | (.word, r) =>
    let word := String.ofList text
    match Verbosity.ofName word with
    | some verbosity => some { r with verbosity }
    | none => some { r with target := word }
  | (.spanEnd, r) => some r
  | (.verbosity start, r) => do
    let name ← Text.cutFrom text start
    if name = "" then return r else return { r with verbosity := ← Verbosity.ofName name }
  | _ => none

/-- The rule that a text stands for, if it is one. -/
def read (text : String) : Option Rule := do
  let chars := text.toList
  let ending ← (Text.placed 0 (Text.trimBlanks chars)).foldlM
    (fun x (i, c) => step chars i c x) (.start, {})
  finish chars ending

/-! ### Meaning -/

def covers (e : Entry) (r : Rule) : Bool :=
  r.span.isNone &&
  r.target.all (fun target => e.target.startsWith target) &&
  r.field.all fun field => field.pattern.isNone && e.names.contains field.name

/-- How much a rule says about the target. -/
def reach (r : Rule) : Nat := (r.target.map fun target => target.utf8ByteSize + 1).getD 0

/-- The rule `s` is as specific as `r`, or more. A rule with a longer target is more
specific. Of two rules with one target the one that asks for a field is, and of two that
ask for fields the one whose field comes later in the order of texts. -/
def yields (r s : Rule) : Bool :=
  if r.reach = s.reach then
    match r.field, s.field with
    | none, _ => true
    | some _, none => false
    | some f, some g => decide (f.name ≤ g.name)
  else decide (r.reach < s.reach)

/-- The fields of two rules with one target decide which one is more specific. -/
theorem yields_of_reach_eq {r s : Rule} (h : r.reach = s.reach) :
    r.yields s = true ↔ ∀ f ∈ r.field, ∃ g ∈ s.field, f.name ≤ g.name := by
  rw [yields, if_pos h]
  cases r.field <;> cases s.field <;> simp

theorem yields_of_reach_ne {r s : Rule} (h : r.reach ≠ s.reach) :
    r.yields s = true ↔ r.reach < s.reach := by
  rw [yields, if_neg h, decide_eq_true_iff]

/-- Of two rules one is as specific as the other, or more. -/
theorem yields_total (r s : Rule) : r.yields s = true ∨ s.yields r = true := by
  by_cases h : r.reach = s.reach
  · rw [yields_of_reach_eq h, yields_of_reach_eq h.symm]
    cases r.field with
    | none => exact Or.inl nofun
    | some f =>
      cases s.field with
      | none => exact Or.inr nofun
      | some g => simpa using Std.le_total (a := f.name) (b := g.name)
  · rw [yields_of_reach_ne h, yields_of_reach_ne (Ne.symm h)]
    omega

theorem reach_le_of_yields {r s : Rule} (h : r.yields s = true) : r.reach ≤ s.reach := by
  by_cases hreach : r.reach = s.reach
  · exact Nat.le_of_eq hreach
  · exact Nat.le_of_lt ((yields_of_reach_ne hreach).1 h)

theorem yields_trans {r s t : Rule} (hrs : r.yields s = true) (hst : s.yields t = true) :
    r.yields t = true := by
  have hrs' := reach_le_of_yields hrs
  have hst' := reach_le_of_yields hst
  by_cases hreach : r.reach = t.reach
  · rw [yields_of_reach_eq (by omega)] at hrs hst
    rw [yields_of_reach_eq hreach]
    intro f hf
    obtain ⟨g, hg, hfg⟩ := hrs f hf
    obtain ⟨k, hk, hgk⟩ := hst g hg
    exact ⟨k, hk, Std.le_trans hfg hgk⟩
  · exact (yields_of_reach_ne hreach).2 (by omega)

end Rule

end TimingWheel.Log
