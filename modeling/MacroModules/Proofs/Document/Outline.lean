import MacroModules.Proofs.Document.Legible
import MacroModules.Proofs.Text.Parts
import MacroModules.Proofs.Text.Quoted

/-!
# Outlines determine documents

An outline is made of lines, and a line of an indentation, a keyword and a detail. The indentation
says which lines belong together, the keyword which kind of thing the line shows. In the detail
names stand as they are, next to marks that no name has in it, and text stands in quoted form. So an
outline can be taken apart, and nothing that it shows can be mistaken for something else.

* `Document.lineOnly`: a document without what its outline leaves out, which is the text and where
  in their lines the names of modules stand.
* `Labelled`, `Labelled.unique`: the parts of a line, and that there is one way to find them.
* `fragment_inj`, `statement_inj`, `part_inj`: the lines of a fragment, a statement and a section
  determine it.
* `lines_eq_of_text_eq`: the text of an outline determines its lines.
* `outline_determines_document`: **documents of one name have the same outline exactly if they are
  the same, up to what outlines leave out**.
-/

namespace MacroModules

/-! ## What an outline leaves out -/

/-- The position with nothing but its line. -/
def Position.lineOnly (p : Position) : Position := ⟨p.line, 0, 0⟩

/-- The span with nothing but its lines. -/
def Span.lineOnly (s : Span) : Span := ⟨s.start.lineOnly, s.stop.lineOnly⟩

/-- The module without the place of its name in the line. -/
def Module.lineOnly (m : Module) : Module := { m with span := m.span.lineOnly }

/-- The section without the place of the module's name in its line. -/
def Section.lineOnly : Section → Section
  | .raw text => .raw text
  | .code m => .code m.lineOnly
  | .unknown label => .unknown label

/-- The document without its text, and without the places of the modules' names in their lines. -/
def Document.lineOnly (d : Document) : Document :=
  ⟨⟨d.source.name, ""⟩, d.sections.map Section.lineOnly⟩

/-- A legible module has no lines but the one on which it begins. -/
theorem Module.Legible.lineOnly_eq {m : Module} (h : m.Legible) :
    m.lineOnly = ⟨m.name, m.body, m.line, ⟨⟨m.line, 0, 0⟩, ⟨m.line, 0, 0⟩⟩⟩ := by
  simp [Module.lineOnly, Span.lineOnly, Position.lineOnly, h.start_line, h.stop_line]

theorem stops_of_isName {x : String} (h : isName x) : Stops (fun c => !c.isAlphanum) x.toList := by
  obtain ⟨⟨c, cs, hcs, -⟩, hall⟩ := isName_iff.1 h
  have hc : c.isAlphanum := hall c (hcs ▸ List.mem_cons_self)
  rw [hcs]
  simp [Stops, hc]

theorem ne_empty_of_isName {x : String} (h : isName x) : x ≠ "" := by
  obtain ⟨⟨c, cs, hcs, -⟩, -⟩ := isName_iff.1 h
  rintro rfl
  cases hcs

namespace Outline

/-! ## Lines -/

/-- How deep a line is indented. -/
def depthOf : Line → Nat
  | .ok content => (content.toList.takeWhile (· == ' ')).length / 2
  | .error _ => 0

/-- One or more letters. -/
def IsKeyword (keyword : String) : Prop := keyword ≠ "" ∧ ∀ c ∈ keyword.toList, c.isAlpha

instance (keyword : String) : Decidable (IsKeyword keyword) :=
  decidable_of_iff (keyword ≠ "" ∧ keyword.toList.all Char.isAlpha = true)
    (and_congr_right fun _ => List.all_eq_true)

/-- The line is at a depth and made of a keyword and a detail, which does not go on with letters. -/
structure Labelled (depth : Nat) (keyword detail : String) (l : Line) : Prop where
  eq : l = .ok (indent depth (keyword ++ detail))
  isKeyword : IsKeyword keyword
  stops : Stops Char.isAlpha detail.toList
  oneLine : OneLine detail

/-- A detail that begins with a mark. -/
theorem labelled_of_mark {keyword mark rest content : String} (hkeyword : IsKeyword keyword)
    (hmark : mark ≠ "" ∧ Stops Char.isAlpha mark.toList ∧ OneLine mark) (hrest : OneLine rest)
    (hcontent : content = keyword ++ (mark ++ rest)) (depth : Nat) :
    Labelled depth keyword (mark ++ rest) (.ok (indent depth content)) where
  eq := by rw [hcontent]
  isKeyword := hkeyword
  stops := stops_append hmark.1 hmark.2.1 rest
  oneLine := oneLine_append_iff.2 ⟨hmark.2.2, hrest⟩

namespace Labelled

variable {depth depth' : Nat} {keyword keyword' detail detail' : String} {l : Line}

theorem stops_space (h : Labelled depth keyword detail l) :
    Stops (· == ' ') (keyword ++ detail).toList := by
  refine stops_append h.isKeyword.1 ?_ detail
  have hletters := h.isKeyword.2
  cases hcs : keyword.toList with
  | nil => rfl
  | cons c cs =>
    have hc : c.isAlpha := hletters c (hcs ▸ List.mem_cons_self)
    have hne : c ≠ ' ' := by
      rintro rfl
      exact absurd hc (by decide)
    simp [Stops, hne]

theorem depthOf_eq (h : Labelled depth keyword detail l) : depthOf l = depth := by
  have hstops := h.stops_space
  rw [h.eq, depthOf, indent, String.toList_append, String.toList_ofList,
    List.takeWhile_append_of_pos (by simp)]
  cases hcs : (keyword ++ detail).toList with
  | nil => simp
  | cons c cs =>
    rw [hcs] at hstops
    have hc : (c == ' ') = false := hstops
    simp [hc]

/-- There is one way to take a line apart. -/
theorem unique (h : Labelled depth keyword detail l) (h' : Labelled depth keyword' detail' l) :
    keyword = keyword' ∧ detail = detail' := by
  have hsame := h.eq.symm.trans h'.eq
  have hcontent : keyword ++ detail = keyword' ++ detail' :=
    (String.append_right_inj _).1 (Except.ok.inj hsame)
  exact string_append_inj_of_stops h.isKeyword.2 h'.isKeyword.2 h.stops h'.stops hcontent

theorem exists_oneLine (h : Labelled depth keyword detail l) : ∃ x, l = .ok x ∧ OneLine x := by
  refine ⟨_, h.eq, ?_⟩
  have hspaces : OneLine (String.ofList (List.replicate (2 * depth) ' ')) := by
    rw [OneLine, String.toList_ofList]
    intro hmem
    exact absurd (List.eq_of_mem_replicate hmem) (by decide)
  have hkeyword : OneLine keyword := by
    intro hmem
    exact absurd (h.isKeyword.2 '\n' hmem) (by decide)
  exact oneLine_append_iff.2 ⟨hspaces, oneLine_append_iff.2 ⟨hkeyword, h.oneLine⟩⟩

end Labelled

theorem oneLine_quote (s : String) : OneLine (Text.quote s) := Text.lf_notMem_quote s

/-! ## Fragments -/

/-- The keyword of a fragment's line. -/
def fragmentKeyword : Fragment → String
  | .text _ => "Expand"
  | .slot _ => "Parameter"
  | .word _ => "OptDependency"
  | .foreign _ _ _ => "External"
  | .call _ _ => "TemplateCall"
  | .unknown _ => ""

/-- What stands between the parentheses in a fragment's line. -/
def fragmentDetail : Fragment → String
  | .text value => Text.quote value
  | .slot index => Int.repr index
  | .word name => name
  | .foreign owner object inlined => owner ++ ((if inlined then "." else "::") ++ object)
  | .call name args => name ++ ("<" ++ (", ".intercalate args ++ ">"))
  | .unknown _ => ""

theorem isKeyword_fragmentKeyword {f : Fragment} (hf : f.Legible) :
    IsKeyword (fragmentKeyword f) := by
  cases f with
  | text => exact (by decide : IsKeyword "Expand")
  | slot => exact (by decide : IsKeyword "Parameter")
  | word => exact (by decide : IsKeyword "OptDependency")
  | foreign => exact (by decide : IsKeyword "External")
  | call => exact (by decide : IsKeyword "TemplateCall")
  | unknown => cases hf

theorem oneLine_fragmentDetail {f : Fragment} (hf : f.Legible) : OneLine (fragmentDetail f) := by
  cases f with
  | text value => exact oneLine_quote value
  | slot index => exact oneLine_repr index
  | word name => exact oneLine_of_isName hf
  | foreign owner object inlined =>
    have hsep : OneLine (if inlined then "." else "::") := by cases inlined <;> decide
    simp only [fragmentDetail, oneLine_append_iff]
    exact ⟨oneLine_of_isName hf.1, hsep, oneLine_of_isName hf.2⟩
  | call name args =>
    have hargs : OneLine (", ".intercalate args) :=
      oneLine_intercalate (by decide) fun arg harg => oneLine_of_isName (hf.2 arg harg)
    simp only [fragmentDetail, oneLine_append_iff]
    exact ⟨oneLine_of_isName hf.1, by decide, hargs, by decide⟩
  | unknown => cases hf

theorem fragment_eq {f : Fragment} (hf : f.Legible) :
    fragment f = .ok (fragmentKeyword f ++ ("(" ++ (fragmentDetail f ++ ")"))) := by
  cases f with
  | unknown => cases hf
  | text | slot | word | foreign | call =>
    refine congrArg Except.ok (String.toList_inj.1 ?_)
    simp [quoted, fragmentKeyword, fragmentDetail]

theorem labelled_fragment {f : Fragment} (hf : f.Legible) :
    Labelled 3 (fragmentKeyword f) ("(" ++ (fragmentDetail f ++ ")"))
      ((fragment f).map (indent 3)) := by
  have hdetail : OneLine (fragmentDetail f ++ ")") :=
    oneLine_append_iff.2 ⟨oneLine_fragmentDetail hf, by decide⟩
  rw [fragment_eq hf]
  exact labelled_of_mark (isKeyword_fragmentKeyword hf) (by decide) hdetail rfl 3

theorem foreign_inj {owner owner' object object' : String} {inlined inlined' : Bool}
    (howner : isName owner) (howner' : isName owner') (hobject : isName object)
    (hobject' : isName object')
    (h : fragmentDetail (.foreign owner object inlined) =
      fragmentDetail (.foreign owner' object' inlined')) :
    owner = owner' ∧ object = object' ∧ inlined = inlined' := by
  have hstops : ∀ (b : Bool) (x : String),
      Stops Char.isAlphanum ((if b then "." else "::") ++ x).toList := by
    intro b x
    cases b with
    | false => exact stops_append (x := "::") (by decide) (by decide) x
    | true => exact stops_append (x := ".") (by decide) (by decide) x
  have hsep_inj : ∀ b b' : Bool,
      (if b then "." else "::") = (if b' then "." else "::") → b = b' := by decide
  have hmarks : ∀ b : Bool, (if b then "." else "::").toList.all fun c => !c.isAlphanum := by
    decide
  -- the owner ends at the first mark, and the marks end where the object begins
  obtain ⟨rfl, hrest⟩ := string_append_inj_of_stops (isName_iff.1 howner).2
    (isName_iff.1 howner').2 (hstops inlined object) (hstops inlined' object') h
  obtain ⟨hsep, rfl⟩ := string_append_inj_of_stops (List.all_eq_true.1 (hmarks inlined))
    (List.all_eq_true.1 (hmarks inlined')) (stops_of_isName hobject) (stops_of_isName hobject')
    hrest
  exact ⟨rfl, rfl, hsep_inj inlined inlined' hsep⟩

theorem bracketed_inj {name name' entries entries' : String} (hname : isName name)
    (hname' : isName name')
    (h : name ++ ("<" ++ (entries ++ ">")) = name' ++ ("<" ++ (entries' ++ ">"))) :
    name = name' ∧ entries = entries' := by
  have hstops : ∀ x, Stops Char.isAlphanum ("<" ++ x).toList :=
    stops_append (by decide) (by decide)
  obtain ⟨rfl, hrest⟩ := string_append_inj_of_stops (isName_iff.1 hname).2 (isName_iff.1 hname').2
    (hstops _) (hstops _) h
  exact ⟨rfl, (String.append_left_inj ">").1 ((String.append_right_inj "<").1 hrest)⟩

/-- **The line of a fragment determines it.** -/
theorem fragment_inj {f g : Fragment} (hf : f.Legible) (hg : g.Legible)
    (h : (fragment f).map (indent 3) = (fragment g).map (indent 3)) : f = g := by
  have hline := labelled_fragment hg
  rw [← h] at hline
  obtain ⟨hkeyword, hdetail⟩ := (labelled_fragment hf).unique hline
  have hinner : fragmentDetail f = fragmentDetail g :=
    (String.append_left_inj ")").1 ((String.append_right_inj "(").1 hdetail)
  -- the keyword leaves only fragments of one kind to be compared
  cases f with
  | text value =>
    cases g with
    | text value' => rw [Text.quote_injective hinner]
    | slot | word | foreign | call | unknown => simp [fragmentKeyword] at hkeyword
  | slot index =>
    cases g with
    | slot index' => rw [repr_inj hinner]
    | text | word | foreign | call | unknown => simp [fragmentKeyword] at hkeyword
  | word name =>
    cases g with
    | word name' => rw [show name = name' from hinner]
    | text | slot | foreign | call | unknown => simp [fragmentKeyword] at hkeyword
  | foreign owner object inlined =>
    cases g with
    | foreign owner' object' inlined' =>
      obtain ⟨rfl, rfl, rfl⟩ := foreign_inj hf.1 hg.1 hf.2 hg.2 hinner
      rfl
    | text | slot | word | call | unknown => simp [fragmentKeyword] at hkeyword
  | call name args =>
    cases g with
    | call name' args' =>
      obtain ⟨rfl, hentries⟩ := bracketed_inj hf.1 hg.1 hinner
      have hentry : ∀ {arg}, isName arg → arg ≠ "" ∧ ',' ∉ arg.toList :=
        fun harg => ⟨ne_empty_of_isName harg, notMem_of_isName (by decide) harg⟩
      rw [intercalate_comma_inj (fun arg harg => hentry (hf.2 arg harg))
        (fun arg harg => hentry (hg.2 arg harg)) hentries]
    | text | slot | word | foreign | unknown => simp [fragmentKeyword] at hkeyword
  | unknown => cases hf

/-! ## Statements -/

/-- The keyword of a statement's first line. -/
def statementKeyword : Statement → String
  | .object _ => "Object"
  | .template _ => "Template"
  | .exported _ => "Export"
  | .imports _ => "Use"
  | .instances _ _ => "Impl"
  | .comment _ => "Comment"
  | .unknown _ => ""

/-- What stands behind the keyword in a statement's first line. -/
def statementDetail : Statement → String
  | .object d | .exported d => " " ++ d.name
  | .template t => "<" ++ (", ".intercalate (t.params.map param) ++ ("> " ++ t.definition.name))
  | .imports name => " " ++ name
  | .instances template ranges =>
    " " ++ (template ++ ("<" ++ (", ".intercalate (ranges.map interval) ++ ">")))
  | .comment value => "(" ++ (Text.quote value ++ ")")
  | .unknown _ => ""

/-- The lines of a body. -/
def bodyLines (body : List Fragment) : List Line :=
  body.map fun f => (fragment f).map (indent 3)

/-- The body that a statement shows below its first line. -/
def bodyOf (s : Statement) : List Fragment := (s.declared?.map Definition.body).getD []

theorem notMem_param {c : Char} (hc : c.isAlphanum = false) (hdash : c ≠ '-') (hsign : c ≠ '&')
    {p : Param} (hp : p.Legible) : c ∉ (param p).toList := by
  cases p with
  | fresh name => exact notMem_of_isName hc hp
  | again slot =>
    have hdigit : c.isDigit = false := (Bool.or_eq_false_iff.1 hc).2
    have hrepr := notMem_repr hdigit hdash slot
    simp [param, hsign, hrepr]

theorem param_ne_empty {p : Param} (hp : p.Legible) : param p ≠ "" := by
  cases p with
  | fresh name => exact ne_empty_of_isName hp
  | again slot => exact fun h => absurd (String.append_eq_empty_iff.1 h).1 (by decide)

theorem param_inj {p q : Param} (hp : p.Legible) (hq : q.Legible) (h : param p = param q) :
    p = q := by
  have hne : ∀ {name : String} {slot : Int}, isName name → name ≠ "&" ++ Int.repr slot := by
    rintro name slot hname rfl
    have hmem : '&' ∈ ("&" ++ Int.repr slot).toList := by simp
    exact absurd ((isName_iff.1 hname).2 '&' hmem) (by decide)
  cases p with
  | fresh name =>
    cases q with
    | fresh name' => rw [show name = name' from h]
    | again slot => exact absurd h (hne hp)
  | again slot =>
    cases q with
    | fresh name => exact absurd h.symm (hne hq)
    | again slot' => rw [repr_inj ((String.append_right_inj "&").1 h)]

theorem notMem_interval {c : Char} (hdigit : c.isDigit = false) (hdash : c ≠ '-') (hdot : c ≠ '.')
    (r : Interval) : c ∉ (interval r).toList := by
  have hrepr := notMem_repr hdigit hdash
  simp [interval, hdot, hrepr]

theorem interval_ne_empty (r : Interval) : interval r ≠ "" := by
  intro h
  have hdots := (String.append_eq_empty_iff.1 (String.append_eq_empty_iff.1 h).1).2
  exact absurd hdots (by decide)

theorem interval_injective : Function.Injective interval := by
  rintro ⟨lo, hi⟩ ⟨lo', hi'⟩ h
  have hrepr := notMem_repr (c := '.') (by decide) (by decide)
  have hstops : ∀ x, Stops (· != '.') (".." ++ x).toList := stops_append (by decide) (by decide)
  simp only [interval, String.append_assoc] at h
  obtain ⟨hlo, hrest⟩ := append_inj_of_notMem (hrepr lo) (hrepr lo') (hstops _) (hstops _) h
  have hhi : Int.repr hi = Int.repr hi' := (String.append_right_inj "..").1 hrest
  rw [repr_inj hlo, repr_inj hhi]

theorem isKeyword_statementKeyword {s : Statement} (hs : s.Legible) :
    IsKeyword (statementKeyword s) := by
  cases s with
  | object => exact (by decide : IsKeyword "Object")
  | template => exact (by decide : IsKeyword "Template")
  | exported => exact (by decide : IsKeyword "Export")
  | imports => exact (by decide : IsKeyword "Use")
  | instances => exact (by decide : IsKeyword "Impl")
  | comment => exact (by decide : IsKeyword "Comment")
  | unknown => cases hs

theorem oneLine_of_isWordChar {x : String} (h : ∀ c ∈ x.toList, isWordChar c) : OneLine x :=
  fun hmem => absurd (h '\n' hmem) (by decide)

theorem oneLine_statementDetail {s : Statement} (hs : s.Legible) :
    OneLine (statementDetail s) := by
  cases s with
  | object d | exported d => exact oneLine_append_iff.2 ⟨by decide, oneLine_of_isName hs.name⟩
  | template t =>
    have hparams : OneLine (", ".intercalate (t.params.map param)) := by
      refine oneLine_intercalate (by decide) fun x hx => ?_
      obtain ⟨p, hp, rfl⟩ := List.mem_map.1 hx
      exact notMem_param (by decide) (by decide) (by decide) (hs.2 p hp)
    simp only [statementDetail, oneLine_append_iff]
    exact ⟨by decide, hparams, by decide, oneLine_of_isName hs.1.name⟩
  | imports name => exact oneLine_append_iff.2 ⟨by decide, oneLine_of_isWordChar hs⟩
  | instances template ranges =>
    have hranges : OneLine (", ".intercalate (ranges.map interval)) := by
      refine oneLine_intercalate (by decide) fun x hx => ?_
      obtain ⟨r, -, rfl⟩ := List.mem_map.1 hx
      exact notMem_interval (by decide) (by decide) (by decide) r
    simp only [statementDetail, oneLine_append_iff]
    exact ⟨by decide, oneLine_of_isName hs, by decide, hranges, by decide⟩
  | comment value =>
    simp only [statementDetail, oneLine_append_iff]
    exact ⟨by decide, oneLine_quote value, by decide⟩
  | unknown => cases hs

theorem stops_statementDetail (s : Statement) :
    Stops Char.isAlpha (statementDetail s).toList := by
  cases s with
  | object | exported | template | imports | instances | comment =>
    exact stops_append (by decide) (by decide) _
  | unknown => rfl

/-- A statement is shown by a line and the lines of its body. -/
theorem statement_eq {s : Statement} (hs : s.Legible) : statement 2 s =
    .ok (indent 2 (statementKeyword s ++ statementDetail s)) :: bodyLines (bodyOf s) := by
  have hcontent : ∀ {x y : String} {ls : List Line}, x.toList = y.toList →
      (.ok (indent 2 x) :: ls : List Line) = .ok (indent 2 y) :: ls := by
    intro x y ls h
    rw [String.toList_inj.1 h]
  cases s with
  | unknown => cases hs
  | object | template | exported | imports | instances | comment =>
    refine hcontent ?_
    simp [quoted, statementKeyword, statementDetail]

theorem labelled_statement {s : Statement} (hs : s.Legible) :
    Labelled 2 (statementKeyword s) (statementDetail s)
      (.ok (indent 2 (statementKeyword s ++ statementDetail s))) :=
  ⟨rfl, isKeyword_statementKeyword hs, stops_statementDetail s, oneLine_statementDetail hs⟩

theorem legible_bodyOf {s : Statement} (hs : s.Legible) : ∀ f ∈ bodyOf s, f.Legible := by
  cases s with
  | object d | exported d => exact hs.body
  | template t => exact hs.1.body
  | imports | instances | comment => simp [bodyOf, Statement.declared?]
  | unknown => cases hs

theorem bodyLines_inj {fs gs : List Fragment} (hfs : ∀ f ∈ fs, f.Legible)
    (hgs : ∀ g ∈ gs, g.Legible) (h : bodyLines fs = bodyLines gs) : fs = gs := by
  have hsame := map_eq_of_map_eq (g := id)
    (fun f hf g hg hfg => fragment_inj (hfs f hf) (hgs g hg) hfg) h
  simpa using hsame

/-- The lines of a body are all at the third level. -/
theorem labelled_of_mem_bodyLines {fs : List Fragment} (hfs : ∀ f ∈ fs, f.Legible) :
    ∀ l ∈ bodyLines fs, ∃ keyword detail, Labelled 3 keyword detail l := by
  intro l hl
  obtain ⟨f, hf, rfl⟩ := List.mem_map.1 hl
  exact ⟨_, _, labelled_fragment (hfs f hf)⟩

theorem definition_eq {d e : Definition} (hbody : d.body = e.body) (hname : d.name = e.name) :
    d = e := by
  cases d
  cases e
  simp_all

/-- The parameters of a template end at the bracket, which no name has in it. -/
theorem template_inj {t u : Template} (ht : ∀ p ∈ t.params, p.Legible)
    (hu : ∀ p ∈ u.params, p.Legible)
    (h : statementDetail (.template t) = statementDetail (.template u)) :
    t.params = u.params ∧ t.definition.name = u.definition.name := by
  have hentry : ∀ {p : Param}, p.Legible → param p ≠ "" ∧ ',' ∉ (param p).toList :=
    fun hp => ⟨param_ne_empty hp, notMem_param (by decide) (by decide) (by decide) hp⟩
  have hbracket : ∀ {ps : List Param}, (∀ p ∈ ps, p.Legible) →
      '>' ∉ (", ".intercalate (ps.map param)).toList := by
    intro ps hps
    refine notMem_intercalate (by decide) (List.forall_mem_map.2 fun p hp => ?_)
    exact notMem_param (by decide) (by decide) (by decide) (hps p hp)
  have hstops : ∀ x, Stops (· != '>') ("> " ++ x).toList := stops_append (by decide) (by decide)
  obtain ⟨hparams, hname⟩ := append_inj_of_notMem (hbracket ht) (hbracket hu) (hstops _) (hstops _)
    ((String.append_right_inj "<").1 h)
  refine ⟨?_, (String.append_right_inj "> ").1 hname⟩
  exact intercalate_comma_map_inj (fun p hp => hentry (ht p hp)) (fun p hp => hentry (hu p hp))
    (fun p hp q hq hpq => param_inj (ht p hp) (hu q hq) hpq) hparams

theorem ranges_inj {rs qs : List Interval}
    (h : ", ".intercalate (rs.map interval) = ", ".intercalate (qs.map interval)) : rs = qs := by
  have hentry : ∀ r : Interval, interval r ≠ "" ∧ ',' ∉ (interval r).toList :=
    fun r => ⟨interval_ne_empty r, notMem_interval (by decide) (by decide) (by decide) r⟩
  exact intercalate_comma_map_inj (fun r _ => hentry r) (fun r _ => hentry r)
    (fun _ _ _ _ hrq => interval_injective hrq) h

/-- **The lines of a statement determine it.** -/
theorem statement_inj {s u : Statement} (hs : s.Legible) (hu : u.Legible)
    (h : statement 2 s = statement 2 u) : s = u := by
  rw [statement_eq hs, statement_eq hu] at h
  obtain ⟨hline, hlines⟩ := List.cons.inj h
  have hbody : bodyOf s = bodyOf u := bodyLines_inj (legible_bodyOf hs) (legible_bodyOf hu) hlines
  have hlabel := labelled_statement hu
  rw [← hline] at hlabel
  obtain ⟨hkeyword, hdetail⟩ := (labelled_statement hs).unique hlabel
  -- the keyword leaves only statements of one kind to be compared
  cases s with
  | object d =>
    cases u with
    | object e =>
      rw [definition_eq hbody ((String.append_right_inj " ").1 hdetail)]
    | template | exported | imports | instances | comment | unknown =>
      simp [statementKeyword] at hkeyword
  | exported d =>
    cases u with
    | exported e =>
      rw [definition_eq hbody ((String.append_right_inj " ").1 hdetail)]
    | object | template | imports | instances | comment | unknown =>
      simp [statementKeyword] at hkeyword
  | template t =>
    cases u with
    | template u =>
      obtain ⟨hparams, hname⟩ := template_inj hs.2 hu.2 hdetail
      have hdefinition : t.definition = u.definition := definition_eq hbody hname
      cases t
      cases u
      simp_all
    | object | exported | imports | instances | comment | unknown =>
      simp [statementKeyword] at hkeyword
  | imports name =>
    cases u with
    | imports name' => rw [(String.append_right_inj " ").1 hdetail]
    | object | template | exported | instances | comment | unknown =>
      simp [statementKeyword] at hkeyword
  | instances name ranges =>
    cases u with
    | instances name' ranges' =>
      obtain ⟨rfl, hentries⟩ := bracketed_inj hs hu ((String.append_right_inj " ").1 hdetail)
      rw [ranges_inj hentries]
    | object | template | exported | imports | comment | unknown =>
      simp [statementKeyword] at hkeyword
  | comment value =>
    cases u with
    | comment value' =>
      have hquote := (String.append_left_inj ")").1 ((String.append_right_inj "(").1 hdetail)
      rw [Text.quote_injective hquote]
    | object | template | exported | imports | instances | unknown =>
      simp [statementKeyword] at hkeyword
  | unknown => cases hs

/-- The lines of a statement are below the first level. -/
theorem labelled_of_mem_statement {s : Statement} (hs : s.Legible) :
    ∀ l ∈ statement 2 s, ∃ depth keyword detail, 1 < depth ∧ Labelled depth keyword detail l := by
  rw [statement_eq hs]
  refine List.forall_mem_cons.2 ⟨⟨2, _, _, by decide, labelled_statement hs⟩, fun l hl => ?_⟩
  obtain ⟨keyword, detail, hlabel⟩ := labelled_of_mem_bodyLines (legible_bodyOf hs) l hl
  exact ⟨3, keyword, detail, by decide, hlabel⟩

theorem isBlock_statement {s : Statement} (hs : s.Legible) :
    IsBlock (depthOf · == 2) (statement 2 s) := by
  refine ⟨_, _, statement_eq hs, ?_, fun l hl => ?_⟩
  · simp [(labelled_statement hs).depthOf_eq]
  · obtain ⟨keyword, detail, hlabel⟩ := labelled_of_mem_bodyLines (legible_bodyOf hs) l hl
    simp [hlabel.depthOf_eq]

theorem statements_inj {ss us : List Statement} (hss : ∀ s ∈ ss, s.Legible)
    (hus : ∀ u ∈ us, u.Legible) (h : ss.flatMap (statement 2) = us.flatMap (statement 2)) :
    ss = us := by
  have hblocks := map_eq_of_flatMap_eq (fun s hs => isBlock_statement (hss s hs))
    (fun u hu => isBlock_statement (hus u hu)) h
  have hsame := map_eq_of_map_eq (g := id)
    (fun s hs u hu hsu => statement_inj (hss s hs) (hus u hu) hsu) hblocks
  simpa using hsame

/-! ## Sections -/

/-- The keyword of a section's first line. -/
def sectionKeyword : Section → String
  | .raw _ => "RawText"
  | .code _ => "Module"
  | .unknown _ => ""

/-- What stands behind the keyword in a section's first line. -/
def sectionDetail : Section → String
  | .raw text => "(" ++ (Text.quote text ++ ")")
  | .code m => " " ++ (m.name ++ (" (line " ++ (Int.repr m.line ++ ")")))
  | .unknown _ => ""

/-- The statements that a section shows below its first line. -/
def statementsOf (c : Section) : List Statement := (c.module?.map Module.body).getD []

theorem part_eq {c : Section} (hc : c.Legible) : part c =
    .ok (indent 1 (sectionKeyword c ++ sectionDetail c)) ::
      (statementsOf c).flatMap (statement 2) := by
  cases c with
  | raw text =>
    have hcontent : quoted "RawText" text = "RawText" ++ sectionDetail (.raw text) :=
      String.toList_inj.1 (by simp [quoted, sectionDetail])
    rw [part, hcontent]
    rfl
  | code m =>
    have hcontent : "Module " ++ m.name ++ " (line " ++ Int.repr m.line ++ ")" =
        "Module" ++ sectionDetail (.code m) :=
      String.toList_inj.1 (by simp [sectionDetail])
    rw [part, hcontent]
    rfl
  | unknown => cases hc

theorem labelled_section {c : Section} (hc : c.Legible) :
    Labelled 1 (sectionKeyword c) (sectionDetail c)
      (.ok (indent 1 (sectionKeyword c ++ sectionDetail c))) := by
  cases c with
  | raw text =>
    have hrest : OneLine (Text.quote text ++ ")") :=
      oneLine_append_iff.2 ⟨oneLine_quote text, by decide⟩
    exact labelled_of_mark (by decide : IsKeyword "RawText") (by decide) hrest rfl 1
  | code m =>
    have hrest : OneLine (m.name ++ (" (line " ++ (Int.repr m.line ++ ")"))) := by
      simp only [oneLine_append_iff]
      exact ⟨oneLine_of_isWordChar hc.name, by decide, oneLine_repr m.line, by decide⟩
    exact labelled_of_mark (by decide : IsKeyword "Module") (by decide) hrest rfl 1
  | unknown => cases hc

theorem legible_statementsOf {c : Section} (hc : c.Legible) :
    ∀ s ∈ statementsOf c, s.Legible := by
  cases c with
  | raw => simp [statementsOf, Section.module?]
  | code m => exact hc.body
  | unknown => cases hc

theorem labelled_of_mem_part {c : Section} (hc : c.Legible) :
    ∀ l ∈ part c, ∃ depth keyword detail, Labelled depth keyword detail l := by
  rw [part_eq hc]
  refine List.forall_mem_cons.2 ⟨⟨1, _, _, labelled_section hc⟩, fun l hl => ?_⟩
  obtain ⟨s, hs, hl⟩ := List.mem_flatMap.1 hl
  obtain ⟨depth, keyword, detail, -, hlabel⟩ :=
    labelled_of_mem_statement (legible_statementsOf hc s hs) l hl
  exact ⟨depth, keyword, detail, hlabel⟩

theorem isBlock_part {c : Section} (hc : c.Legible) : IsBlock (depthOf · == 1) (part c) := by
  refine ⟨_, _, part_eq hc, ?_, fun l hl => ?_⟩
  · simp [(labelled_section hc).depthOf_eq]
  · obtain ⟨s, hs, hl⟩ := List.mem_flatMap.1 hl
    obtain ⟨depth, keyword, detail, hdepth, hlabel⟩ :=
      labelled_of_mem_statement (legible_statementsOf hc s hs) l hl
    have hne : depthOf l ≠ 1 := by rw [hlabel.depthOf_eq]; omega
    exact beq_false_of_ne hne

/-- The name of a module ends at the blank, which no word has in it. -/
theorem module_inj {m k : Module} (hm : m.Legible) (hk : k.Legible)
    (h : sectionDetail (.code m) = sectionDetail (.code k)) :
    m.name = k.name ∧ m.line = k.line := by
  have hstops : ∀ x, Stops isWordChar (" (line " ++ x).toList :=
    stops_append (by decide) (by decide)
  obtain ⟨hname, hrest⟩ := string_append_inj_of_stops hm.name hk.name (hstops _) (hstops _)
    ((String.append_right_inj " ").1 h)
  have hline := (String.append_left_inj ")").1 ((String.append_right_inj " (line ").1 hrest)
  exact ⟨hname, repr_inj hline⟩

/-- **The lines of a section determine it**, except for the place of the module's name. -/
theorem part_inj {c e : Section} (hc : c.Legible) (he : e.Legible) (h : part c = part e) :
    c.lineOnly = e.lineOnly := by
  rw [part_eq hc, part_eq he] at h
  obtain ⟨hline, hlines⟩ := List.cons.inj h
  have hbody : statementsOf c = statementsOf e :=
    statements_inj (legible_statementsOf hc) (legible_statementsOf he) hlines
  have hlabel := labelled_section he
  rw [← hline] at hlabel
  obtain ⟨hkeyword, hdetail⟩ := (labelled_section hc).unique hlabel
  cases c with
  | raw text =>
    cases e with
    | raw text' =>
      have hquote := (String.append_left_inj ")").1 ((String.append_right_inj "(").1 hdetail)
      rw [Text.quote_injective hquote]
    | code | unknown => simp [sectionKeyword] at hkeyword
  | code m =>
    cases e with
    | code k =>
      obtain ⟨hname, hline⟩ := module_inj hc he hdetail
      have hbody : m.body = k.body := hbody
      rw [Section.lineOnly, Section.lineOnly, Module.Legible.lineOnly_eq hc,
        Module.Legible.lineOnly_eq he, hname, hbody, hline]
    | raw | unknown => simp [sectionKeyword] at hkeyword
  | unknown => cases hc

theorem sections_inj {cs es : List Section} (hcs : ∀ c ∈ cs, c.Legible)
    (hes : ∀ e ∈ es, e.Legible) (h : cs.flatMap part = es.flatMap part) :
    cs.map Section.lineOnly = es.map Section.lineOnly := by
  have hblocks := map_eq_of_flatMap_eq (fun c hc => isBlock_part (hcs c hc))
    (fun e he => isBlock_part (hes e he)) h
  exact map_eq_of_map_eq (fun c hc e he hce => part_inj (hcs c hc) (hes e he) hce) hblocks

/-! ## Documents -/

/-- If no line is missing, all of them are written. -/
theorem map_ok_written {ls : List Line} (h : ∀ l ∈ ls, ∃ x, l = .ok x ∧ OneLine x) :
    (written ls).map .ok = ls ∧ ∀ x ∈ written ls, OneLine x := by
  induction ls with
  | nil => exact ⟨rfl, by simp [written]⟩
  | cons l ls ih =>
    obtain ⟨⟨x, rfl, hx⟩, hls⟩ := List.forall_mem_cons.1 h
    obtain ⟨hsame, hlines⟩ := ih hls
    refine ⟨?_, List.forall_mem_cons.2 ⟨hx, hlines⟩⟩
    rw [written, List.map_cons, hsame]

theorem text_eq (d : Document) : text d = "SourceFile " ++ d.source.name ++ "\n" ++
    String.join ((written (d.sections.flatMap part)).map (· ++ "\n")) := by
  rw [text, lines, written, List.map_cons, String.join_cons]

/-- **The text of an outline determines its lines.** The first line is left to the name, which may
have line feeds in it. -/
theorem lines_eq_of_text_eq {d e : Document} (hd : ∀ c ∈ d.sections, c.Legible)
    (he : ∀ c ∈ e.sections, c.Legible) (hname : d.source.name = e.source.name)
    (h : text d = text e) : d.sections.flatMap part = e.sections.flatMap part := by
  have hwritten : ∀ {cs : List Section}, (∀ c ∈ cs, c.Legible) →
      (written (cs.flatMap part)).map .ok = cs.flatMap part ∧
        ∀ x ∈ written (cs.flatMap part), OneLine x := by
    intro cs hcs
    refine map_ok_written fun l hl => ?_
    obtain ⟨c, hc, hl⟩ := List.mem_flatMap.1 hl
    obtain ⟨depth, keyword, detail, hlabel⟩ := labelled_of_mem_part (hcs c hc) l hl
    exact hlabel.exists_oneLine
  obtain ⟨hok, hlines⟩ := hwritten hd
  obtain ⟨hok', hlines'⟩ := hwritten he
  rw [text_eq, text_eq, hname, String.append_right_inj] at h
  rw [← hok, ← hok', join_lines_inj hlines hlines' h]

theorem part_lineOnly (c : Section) : part c.lineOnly = part c := by
  cases c with
  | raw | code | unknown => rfl

/-- An outline shows nothing that `lineOnly` leaves out. -/
theorem text_lineOnly (d : Document) : text d.lineOnly = text d := by
  have hparts : (d.sections.map Section.lineOnly).flatMap part = d.sections.flatMap part := by
    rw [List.flatMap_map]
    exact List.flatMap_congr fun c _ => part_lineOnly c
  rw [text_eq, text_eq, Document.lineOnly, hparts]

end Outline

/-- **An outline determines the document**, up to the text and the places of names in their lines:
sources of one name that can be read have the same outline exactly if they have been read as the
same sections. That rests on the quoted form, which no two texts have in common, and which is on one
line whatever the text. -/
theorem outline_determines_document :
    (∀ (source source' : Source) (d e : Document), source.name = source'.name →
      Document.read source = .ok d → Document.read source' = .ok e →
      (Outline.text d = Outline.text e ↔ d.lineOnly = e.lineOnly)) ∧
    Function.Injective Text.quote ∧ ∀ s : String, '\n' ∉ (Text.quote s).toList := by
  refine ⟨fun source source' d e hname hd he => ⟨fun h => ?_, fun h => ?_⟩,
    Text.quote_injective, Text.lf_notMem_quote⟩
  · have hname : d.source.name = e.source.name := by
      rw [(Grammar.read_eq_ok_iff.1 hd).1, (Grammar.read_eq_ok_iff.1 he).1, hname]
    have hparts := Outline.lines_eq_of_text_eq (read_legible hd) (read_legible he) hname h
    rw [Document.lineOnly, Document.lineOnly, hname,
      Outline.sections_inj (read_legible hd) (read_legible he) hparts]
  · rw [← Outline.text_lineOnly d, h, Outline.text_lineOnly]

/-- Two sources that differ in blanks only have the same outline, although the name of the module
stands in another place. -/
theorem outline_determines_document_blanks :
    let source : Source :=
      ⟨"a", "@M \x7b\n@use N_1\nT<p, p>(x) p \"'\\t\" N.B T<p>\n@impl T<0..12>\n// c\n\x7d"⟩
    let source' : Source := ⟨"a",
      "@ M\x7b\n @use  N_1\nT< p ,p >( x ) p \"'\\t\" N.B T< p >\n@impl T< 0..12 > \n // c\n\x7d"⟩
    ∃ d e, Document.read source = .ok d ∧ Document.read source' = .ok e ∧
      d.sections ≠ e.sections ∧ Outline.text d = Outline.text e ∧ d.lineOnly = e.lineOnly := by
  intro source source'
  obtain ⟨d, hd⟩ := exists_eq_ok_of_isOk (by decide +kernel : (Document.read source).isOk)
  obtain ⟨e, he⟩ := exists_eq_ok_of_isOk (by decide +kernel : (Document.read source').isOk)
  have hne : (Document.read source).toOption.map Document.sections ≠
      (Document.read source').toOption.map Document.sections := by decide +kernel
  have htext : (Document.read source).toOption.map Outline.text =
      (Document.read source').toOption.map Outline.text := by decide +kernel
  rw [hd, he] at hne htext
  have htext : Outline.text d = Outline.text e := Option.some.inj htext
  refine ⟨d, e, hd, he, fun h => hne (congrArg some h), htext, ?_⟩
  exact (outline_determines_document.1 source source' d e rfl hd he).1 htext

end MacroModules
