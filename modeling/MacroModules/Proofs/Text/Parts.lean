import MacroModules.Proofs.Document.OneLine

/-!
# Parts of texts

Text that is put together from parts can be taken apart again, if every part says where it ends: it
is made of characters of one class, and what follows it does not begin with one.

* `Stops`, `append_inj_of_stops`, `string_append_inj_of_stops`: such a part, in a list or a text.
* `join_lines_inj`: the lines of a text, each with a line feed behind it.
* `intercalate_comma_inj`, `intercalate_comma_map_inj`: entries with commas between them.
* `IsBlock`, `map_eq_of_flatMap_eq`: blocks that begin with a member of a class and have no other.
* `isDigit_or_eq_dash_of_mem_repr`, `notMem_repr`, `repr_inj`: the characters of a numeral, and its
  number.
-/

namespace MacroModules

/-! ## Where a part ends -/

section

variable {α : Type} {p : α → Bool}

variable (p) in
/-- The list is empty or begins with something that is not of the class. -/
def Stops (x : List α) : Prop := x.head?.any p = false

instance (x : List α) : Decidable (Stops p x) :=
  inferInstanceAs (Decidable (x.head?.any p = false))

theorem takeWhile_append_of_stops {v x : List α} (hv : ∀ a ∈ v, p a) (hx : Stops p x) :
    (v ++ x).takeWhile p = v := by
  rw [List.takeWhile_append_of_pos hv]
  cases x with
  | nil => simp
  | cons a x =>
    have ha : p a = false := hx
    simp [ha]

theorem stops_dropWhile (p : α → Bool) (x : List α) : Stops p (x.dropWhile p) := by
  induction x with
  | nil => rfl
  | cons a x ih =>
    rw [List.dropWhile_cons]
    split
    · exact ih
    · exact eq_false_of_ne_true ‹_›

/-- A part ends where something comes that is not of its class. -/
theorem append_inj_of_stops {v w x y : List α} (hv : ∀ a ∈ v, p a) (hw : ∀ a ∈ w, p a)
    (hx : Stops p x) (hy : Stops p y) (h : v ++ x = w ++ y) : v = w ∧ x = y := by
  obtain rfl : v = w := by
    rw [← takeWhile_append_of_stops hv hx, h, takeWhile_append_of_stops hw hy]
  exact ⟨rfl, List.append_cancel_left h⟩

end

section

variable {p : Char → Bool}

theorem stops_append {x : String} (hx : x ≠ "") (hstops : Stops p x.toList) (y : String) :
    Stops p (x ++ y).toList := by
  rw [String.toList_append]
  cases hcs : x.toList with
  | nil => exact absurd (String.toList_eq_nil_iff.1 hcs) hx
  | cons c cs =>
    rw [hcs] at hstops
    exact hstops

theorem string_append_inj_of_stops {v w x y : String} (hv : ∀ c ∈ v.toList, p c)
    (hw : ∀ c ∈ w.toList, p c) (hx : Stops p x.toList) (hy : Stops p y.toList)
    (h : v ++ x = w ++ y) : v = w ∧ x = y := by
  have hlists : v.toList ++ x.toList = w.toList ++ y.toList := by
    rw [← String.toList_append, h, String.toList_append]
  obtain ⟨hvw, hxy⟩ := append_inj_of_stops hv hw hx hy hlists
  exact ⟨String.toList_inj.1 hvw, String.toList_inj.1 hxy⟩

theorem bne_of_notMem {c : Char} {v : List Char} (hv : c ∉ v) : ∀ b ∈ v, (b != c) = true :=
  fun _ hb => bne_iff_ne.2 fun hbc => hv (hbc ▸ hb)

theorem eq_of_stops_bne {c b : Char} {x : List Char} (h : Stops (· != c) (b :: x)) : b = c := by
  have hstop : (b != c) = false := h
  simpa using hstop

/-- A part without a certain character ends where that character comes. -/
theorem append_inj_of_notMem {c : Char} {v w x y : String} (hv : c ∉ v.toList)
    (hw : c ∉ w.toList) (hx : Stops (· != c) x.toList) (hy : Stops (· != c) y.toList)
    (h : v ++ x = w ++ y) : v = w ∧ x = y :=
  string_append_inj_of_stops (bne_of_notMem hv) (bne_of_notMem hw) hx hy h

end

/-! ## Lines and lists -/

/-- Lines can be told apart. -/
theorem join_lines_inj {xs ys : List String} (hxs : ∀ x ∈ xs, OneLine x)
    (hys : ∀ y ∈ ys, OneLine y)
    (h : String.join (xs.map (· ++ "\n")) = String.join (ys.map (· ++ "\n"))) : xs = ys := by
  have hstops : ∀ z, Stops (· != '\n') ("\n" ++ z).toList := stops_append (by decide) (by decide)
  have hne : ∀ x z : String, x ++ ("\n" ++ z) ≠ "" := by
    intro x z hempty
    have hlf := (String.append_eq_empty_iff.1 (String.append_eq_empty_iff.1 hempty).2).1
    exact absurd hlf (by decide)
  induction xs generalizing ys with
  | nil =>
    cases ys with
    | nil => rfl
    | cons y ys =>
      rw [List.map_cons, String.join_cons, String.append_assoc] at h
      exact absurd h.symm (hne y _)
  | cons x xs ih =>
    obtain ⟨hx, hxs⟩ := List.forall_mem_cons.1 hxs
    rw [List.map_cons, String.join_cons, String.append_assoc] at h
    cases ys with
    | nil => exact absurd h (hne x _)
    | cons y ys =>
      obtain ⟨hy, hys'⟩ := List.forall_mem_cons.1 hys
      rw [List.map_cons, String.join_cons, String.append_assoc] at h
      obtain ⟨rfl, hrest⟩ := append_inj_of_notMem hx hy (hstops _) (hstops _) h
      rw [ih hxs hys' ((String.append_right_inj "\n").1 hrest)]

/-- What stands behind the first entry of a list: the others, each behind a comma. -/
def entriesBehind (xs : List String) : String := String.join (xs.map (", " ++ ·))

theorem entriesBehind_cons (x : String) (xs : List String) :
    entriesBehind (x :: xs) = ", " ++ (x ++ entriesBehind xs) := by
  rw [entriesBehind, List.map_cons, String.join_cons, String.append_assoc]
  rfl

theorem intercalate_comma_cons (x : String) (xs : List String) :
    ", ".intercalate (x :: xs) = x ++ entriesBehind xs := by
  induction xs generalizing x with
  | nil => rw [String.intercalate_singleton]; exact String.append_empty.symm
  | cons y ys ih => rw [String.intercalate_cons_cons, ih, entriesBehind_cons, String.append_assoc]

theorem stops_entriesBehind (xs : List String) : Stops (· != ',') (entriesBehind xs).toList := by
  cases xs with
  | nil => decide
  | cons x xs =>
    rw [entriesBehind_cons]
    exact stops_append (by decide) (by decide) _

theorem entriesBehind_inj {xs ys : List String} (hxs : ∀ x ∈ xs, ',' ∉ x.toList)
    (hys : ∀ y ∈ ys, ',' ∉ y.toList) (h : entriesBehind xs = entriesBehind ys) : xs = ys := by
  have hne : ∀ x xs, entriesBehind (x :: xs) ≠ "" := by
    intro x xs hempty
    rw [entriesBehind_cons] at hempty
    exact absurd (String.append_eq_empty_iff.1 hempty).1 (by decide)
  induction xs generalizing ys with
  | nil =>
    cases ys with
    | nil => rfl
    | cons y ys => exact absurd h.symm (hne y ys)
  | cons x xs ih =>
    cases ys with
    | nil => exact absurd h (hne x xs)
    | cons y ys =>
      obtain ⟨hx, hxs'⟩ := List.forall_mem_cons.1 hxs
      obtain ⟨hy, hys'⟩ := List.forall_mem_cons.1 hys
      rw [entriesBehind_cons, entriesBehind_cons, String.append_right_inj] at h
      obtain ⟨rfl, hrest⟩ := append_inj_of_notMem hx hy (stops_entriesBehind xs)
        (stops_entriesBehind ys) h
      rw [ih hxs' hys' hrest]

/-- Entries without commas can be told apart, if none is empty. -/
theorem intercalate_comma_inj {xs ys : List String} (hxs : ∀ x ∈ xs, x ≠ "" ∧ ',' ∉ x.toList)
    (hys : ∀ y ∈ ys, y ≠ "" ∧ ',' ∉ y.toList)
    (h : ", ".intercalate xs = ", ".intercalate ys) : xs = ys := by
  cases xs with
  | nil =>
    cases ys with
    | nil => rfl
    | cons y ys =>
      rw [intercalate_comma_cons] at h
      exact absurd (String.append_eq_empty_iff.1 h.symm).1 (hys y List.mem_cons_self).1
  | cons x xs =>
    obtain ⟨⟨hne, hx⟩, hxs'⟩ := List.forall_mem_cons.1 hxs
    rw [intercalate_comma_cons] at h
    cases ys with
    | nil => exact absurd (String.append_eq_empty_iff.1 h).1 hne
    | cons y ys =>
      obtain ⟨⟨-, hy⟩, hys'⟩ := List.forall_mem_cons.1 hys
      rw [intercalate_comma_cons] at h
      obtain ⟨rfl, hrest⟩ := append_inj_of_notMem hx hy (stops_entriesBehind xs)
        (stops_entriesBehind ys) h
      rw [entriesBehind_inj (fun z hz => (hxs' z hz).2) (fun z hz => (hys' z hz).2) hrest]

/-! ## Blocks -/

section

variable {α β γ : Type} {p : β → Bool} {xs ys : List α}

variable (p) in
/-- The first of the list is in the class, and none of the others is. -/
def IsBlock (l : List β) : Prop := ∃ b bs, l = b :: bs ∧ p b = true ∧ ∀ c ∈ bs, p c = false

/-- Blocks in a row can be told apart. -/
theorem map_eq_of_flatMap_eq {f : α → List β} (hxs : ∀ x ∈ xs, IsBlock p (f x))
    (hys : ∀ y ∈ ys, IsBlock p (f y)) (h : xs.flatMap f = ys.flatMap f) :
    xs.map f = ys.map f := by
  have hstops : ∀ {zs : List α}, (∀ z ∈ zs, IsBlock p (f z)) →
      Stops (fun b => !p b) (zs.flatMap f) := by
    intro zs hzs
    cases zs with
    | nil => rfl
    | cons z zs =>
      obtain ⟨b, bs, hz, hb, -⟩ := hzs z List.mem_cons_self
      simp [Stops, hz, hb]
  induction xs generalizing ys with
  | nil =>
    cases ys with
    | nil => rfl
    | cons y ys =>
      obtain ⟨b, bs, hy, -, -⟩ := hys y List.mem_cons_self
      rw [List.flatMap_cons, hy] at h
      cases h
  | cons x xs ih =>
    obtain ⟨⟨b, bs, hx, -, hbs⟩, hxs⟩ := List.forall_mem_cons.1 hxs
    cases ys with
    | nil =>
      rw [List.flatMap_cons, hx] at h
      cases h
    | cons y ys =>
      obtain ⟨⟨c, cs, hy, -, hcs⟩, hys⟩ := List.forall_mem_cons.1 hys
      rw [List.flatMap_cons, List.flatMap_cons, hx, hy] at h
      obtain ⟨hhead, htail⟩ := List.cons.inj h
      -- the first block ends where the next one begins
      obtain ⟨hsame, hrest⟩ := append_inj_of_stops (by simpa using hbs) (by simpa using hcs)
        (hstops hxs) (hstops hys) htail
      rw [List.map_cons, List.map_cons, hx, hy, hhead, hsame, ih hxs hys hrest]

/-- If a view of each member determines another one, then it does so for lists. -/
theorem map_eq_of_map_eq {f : α → β} {g : α → γ}
    (hfg : ∀ x ∈ xs, ∀ y ∈ ys, f x = f y → g x = g y) (h : xs.map f = ys.map f) :
    xs.map g = ys.map g := by
  induction xs generalizing ys with
  | nil =>
    cases ys with
    | nil => rfl
    | cons => cases h
  | cons x xs ih =>
    cases ys with
    | nil => cases h
    | cons y ys =>
      obtain ⟨hxy, hrest⟩ := List.cons.inj h
      have htail := ih (fun a ha b hb => hfg a (List.mem_cons_of_mem x ha) b
        (List.mem_cons_of_mem y hb)) hrest
      rw [List.map_cons, List.map_cons, htail, hfg x List.mem_cons_self y List.mem_cons_self hxy]

/-- Lists can be told apart by the entries of their members, if these have commas between them. -/
theorem intercalate_comma_map_inj {f : α → String} (hxs : ∀ x ∈ xs, f x ≠ "" ∧ ',' ∉ (f x).toList)
    (hys : ∀ y ∈ ys, f y ≠ "" ∧ ',' ∉ (f y).toList)
    (hf : ∀ x ∈ xs, ∀ y ∈ ys, f x = f y → x = y)
    (h : ", ".intercalate (xs.map f) = ", ".intercalate (ys.map f)) : xs = ys := by
  have hentries := intercalate_comma_inj (List.forall_mem_map.2 hxs) (List.forall_mem_map.2 hys) h
  simpa using map_eq_of_map_eq (g := id) hf hentries

end

/-! ## Numerals -/

/-- A numeral is made of digits, and of a dash if the number is negative. -/
theorem isDigit_or_eq_dash_of_mem_repr {n : Int} {c : Char} (hc : c ∈ (Int.repr n).toList) :
    c.isDigit ∨ c = '-' := by
  have hnat : ∀ {k : Nat}, c ∈ k.repr.toList → c.isDigit := by
    intro k hmem
    rw [Nat.toList_repr] at hmem
    exact Nat.isDigit_of_mem_toDigits (by omega) (by omega) hmem
  rw [Int.repr_eq_if] at hc
  split at hc
  · exact .inl (hnat hc)
  · rw [String.toList_append] at hc
    rcases List.mem_append.1 hc with hc | hc
    · exact .inr (List.mem_singleton.1 hc)
    · exact .inl (hnat hc)

theorem notMem_repr {c : Char} (hdigit : c.isDigit = false) (hdash : c ≠ '-') (n : Int) :
    c ∉ (Int.repr n).toList := by
  intro hmem
  rcases isDigit_or_eq_dash_of_mem_repr hmem with h | h
  · rw [hdigit] at h
    cases h
  · exact hdash h

/-- **A numeral determines its number.** -/
theorem repr_inj {m n : Int} (h : Int.repr m = Int.repr n) : m = n := by
  have hnat : ∀ {a b : Nat}, a.repr = b.repr → a = b := by
    intro a b hab
    rw [Nat.repr_eq_ofList_toDigits, Nat.repr_eq_ofList_toDigits, String.ofList_inj] at hab
    rw [← @Nat.ofDigitChars_ten_toDigits a, hab, Nat.ofDigitChars_ten_toDigits]
  have hsign : ∀ a b : Nat, a.repr ≠ "-" ++ b.repr := by
    intro a b hab
    have hdash : '-' ∈ a.repr.toList := by
      rw [hab]
      simp
    rw [Nat.toList_repr] at hdash
    cases Nat.isDigit_of_mem_toDigits (by decide) (by decide) hdash
  rw [Int.repr_eq_if, Int.repr_eq_if] at h
  split at h <;> split at h
  · have := hnat h
    omega
  · exact absurd h (hsign _ _)
  · exact absurd h.symm (hsign _ _)
  · have := hnat ((String.append_right_inj "-").1 h)
    omega

theorem oneLine_repr (n : Int) : OneLine (Int.repr n) := notMem_repr (by decide) (by decide) n

end MacroModules
