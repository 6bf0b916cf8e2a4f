import MacroModules.Config.Toml
import MacroModules.Proofs.Except

/-!
# Reading configurations to the end

Lists and tables of a TOML document may stand inside of each other, so that the readers of values
call each other. They count down how deep they are, how many values a list may have and how many
statements a text may have. These bounds are never met: whatever is read is taken off the front of
the text, and each value inside of another and each statement behind another stands in a shorter
text.

* `scalar_suffix`, `key?_suffix`, `gap_suffix`, `statement_suffix`: what follows is a suffix.
* `Shrinks`, `shrinks_value`: so it is behind values of any depth.
* `value_of_length_le`: **no value is deeper than its text is long**.
* `statements_of_length_lt`: **a text has no more statements than characters**.
-/

namespace MacroModules.Toml

variable {cs : List Char}

/-! ## Strings -/

theorem content?_suffix {q : Char} {multiline : Bool} {r : List Char × List Char}
    (h : content? q multiline cs = some r) : r.2 <:+ cs := by
  fun_induction content? q multiline cs generalizing r with
  | case1 => cases h
  | case2 =>
    cases h
    exact List.suffix_cons _ _
  | case3 =>
    cases h
    exact (List.drop_suffix _ _).trans (List.suffix_cons _ _)
  | case4 => cases h
  | case5 =>
    rename_i ih
    obtain ⟨s, hs, rfl⟩ := Option.map_eq_some_iff.1 h
    exact ((ih hs).trans (List.drop_suffix _ _)).trans (List.suffix_cons _ _)
  | case6 => cases h
  | case7 c cs _ _ _ _ ih =>
    obtain ⟨s, hs, rfl⟩ := Option.map_eq_some_iff.1 h
    exact (ih hs).trans (List.suffix_cons _ _)

theorem lineString?_suffix {r : String × List Char} (h : lineString? cs = some r) :
    r.2 <:+ cs := by
  unfold lineString? at h
  split at h
  · cases h
  · split at h
    · obtain ⟨s, hs, rfl⟩ := Option.map_eq_some_iff.1 h
      exact (content?_suffix hs).trans (List.suffix_cons _ _)
    · cases h

theorem block?_suffix {q : Char} {r : String × List Char} (h : block? q cs = some r) :
    r.2 <:+ cs := by
  obtain ⟨s, hs, rfl⟩ := Option.map_eq_some_iff.1 h
  have hbody : (if cs.head? = some '\n' then cs.tail else cs) <:+ cs := by
    split
    · exact List.tail_suffix cs
    · exact List.suffix_rfl
  exact ((List.drop_suffix _ _).trans (content?_suffix hs)).trans hbody

theorem string?_suffix {r : String × List Char} (h : string? cs = some r) : r.2 <:+ cs := by
  unfold string? at h
  split at h
  · cases h
  · split at h
    · exact ((block?_suffix h).trans (List.drop_suffix _ _)).trans (List.suffix_cons _ _)
    · exact lineString?_suffix h

/-! ## Scalars -/

theorem based?_suffix {r : Value × List Char} (h : based? cs = some r) : r.2 <:+ cs := by
  unfold based? at h
  split at h
  · split at h
    · cases h
    · dsimp only at h
      split at h
      · cases h
      · cases h
        exact (List.drop_suffix _ _).trans ⟨[_, _], rfl⟩
  · cases h

theorem decimal?_suffix {r : Except Fault Value × List Char} (h : decimal? cs = some r) :
    r.2 <:+ cs := by
  unfold decimal? at h
  dsimp only at h
  split at h
  · cases h
  · split at h
    · cases h
      exact (List.drop_suffix _ _).trans (List.drop_suffix _ _)
    · cases h
      exact ((List.drop_suffix _ _).trans (List.drop_suffix _ _)).trans (List.drop_suffix _ _)

theorem special?_suffix {r : Value × List Char} (h : special? cs = some r) : r.2 <:+ cs := by
  unfold special? at h
  dsimp only at h
  split at h
  · cases h
    exact List.drop_suffix _ _
  · cases h

theorem date?_suffix {r : Bool × List Char} (h : date? cs = some r) : r.2 <:+ cs := by
  unfold date? at h
  split at h
  · split at h
    · cases h
      exact ⟨[_, _, _, _, _, _, _, _, _, _], rfl⟩
    · cases h
  · cases h

theorem time?_suffix {rest : List Char} (h : time? cs = some rest) : rest <:+ cs := by
  unfold time? at h
  split at h
  · split at h
    · refine List.IsSuffix.trans ?_ ⟨[_, _, _, _, _, _, _, _], rfl⟩
      split at h
      · cases h
        split
        · exact (List.dropWhile_suffix _).trans (List.suffix_cons _ _)
        · exact List.suffix_rfl
      · cases h
        exact List.suffix_rfl
    · cases h
  · cases h

theorem offset_suffix (cs : List Char) : offset cs <:+ cs := by
  unfold offset
  split
  · split
    · exact List.suffix_cons _ _
    · split
      · split
        · exact ⟨[_, _, _, _, _, _], rfl⟩
        · exact List.suffix_rfl
      · exact List.suffix_rfl
  · exact List.suffix_rfl

theorem clock_suffix (cs : List Char) : clock cs <:+ cs := by
  unfold clock
  split
  · split
    · split
      · rename_i hrest
        exact ((offset_suffix _).trans (time?_suffix hrest)).trans (List.suffix_cons _ _)
      · exact List.suffix_rfl
    · exact List.suffix_rfl
  · exact List.suffix_rfl

theorem moment?_suffix {r : Except Fault Value × List Char} (h : moment? cs = some r) :
    r.2 <:+ cs := by
  unfold moment? at h
  split at h
  · rename_i hdate
    cases h
    exact (clock_suffix _).trans (date?_suffix hdate)
  · rename_i hdate
    cases h
    exact date?_suffix hdate
  · obtain ⟨rest, hrest, rfl⟩ := Option.map_eq_some_iff.1 h
    exact time?_suffix hrest

theorem scalar_suffix {r : Value × List Char} (h : scalar cs = .ok r) : r.2 <:+ cs := by
  have hfound : ∀ {x : Option (Value × List Char)} {y : Except Fault Value × List Char},
      (∀ z, x = some z → z.2 <:+ cs) → scalar.found x = some y → y.2 <:+ cs := by
    intro x y hx hy
    obtain ⟨z, hz, rfl⟩ := Option.map_eq_some_iff.1 hy
    exact hx z hz
  unfold scalar at h
  split at h
  · split at h
    · rename_i hstring
      cases h
      exact string?_suffix hstring
    · cases h
  · split at h
    · cases h
      exact List.drop_suffix _ _
    · split at h
      · cases h
        exact List.drop_suffix _ _
      · split at h
        · rename_i hnumber
          obtain ⟨v, -, rfl⟩ := map_eq_ok_iff.1 h
          rcases Option.or_eq_some_iff.1 hnumber with hmoment | ⟨-, hnumber⟩
          · exact moment?_suffix hmoment
          rcases Option.or_eq_some_iff.1 hnumber with hbased | ⟨-, hnumber⟩
          · exact hfound (fun _ => based?_suffix) hbased
          rcases Option.or_eq_some_iff.1 hnumber with hdecimal | ⟨-, hspecial⟩
          · exact decimal?_suffix hdecimal
          · exact hfound (fun _ => special?_suffix) hspecial
        · cases h

/-! ## Keys and gaps -/

theorem key?_suffix {r : List String × List Char} (h : key? cs = some r) : r.2 <:+ cs := by
  fun_induction key? cs generalizing r with
  | case1 => cases h
  | case2 cs part n _ rest hrest ih =>
    obtain ⟨s, hs, rfl⟩ := Option.map_eq_some_iff.1 h
    have hdot : '.' :: rest <:+ cs :=
      hrest ▸ (List.dropWhile_suffix _).trans (List.drop_suffix n cs)
    exact ((ih hs).trans (List.dropWhile_suffix _)).trans ((List.suffix_cons _ _).trans hdot)
  | case3 cs part n =>
    cases h
    exact (List.dropWhile_suffix _).trans (List.drop_suffix n cs)

theorem comment_suffix {rest : List Char} (h : comment cs = .ok rest) : rest <:+ cs := by
  unfold comment at h
  split at h
  · split at h
    · cases h
    · cases h
      exact List.dropWhile_suffix _
  · cases h
    exact List.suffix_rfl

theorem gap_suffix {rest : List Char} (h : gap cs = .ok rest) : rest <:+ cs := by
  fun_induction gap cs with
  | case1 => cases h
  | case2 cs line hline _ ih =>
    have hcomment : '#' :: line <:+ cs := hline ▸ List.dropWhile_suffix _
    exact ((ih h).trans (List.dropWhile_suffix _)).trans ((List.suffix_cons _ _).trans hcomment)
  | case3 cs =>
    cases h
    exact List.dropWhile_suffix _

/-! ## Values -/

/-- If an item is read, then with a suffix of the text left. -/
def Shrinks (item : List Char → Except Fault (Value × List Char)) : Prop :=
  ∀ ⦃cs r⦄, item cs = .ok r → r.2 <:+ cs

section

variable {item : List Char → Except Fault (Value × List Char)} (hitem : Shrinks item)

include hitem

theorem entry_suffix {r : List String × Value × List Char} (h : entry item cs = .ok r) :
    r.2.2 <:+ cs := by
  unfold entry at h
  split at h
  · rename_i hkey
    obtain ⟨s, hs, h⟩ := bind_eq_ok_iff.1 h
    cases h
    exact (hitem hs).trans ((List.dropWhile_suffix _).trans
      ((List.suffix_cons _ _).trans (key?_suffix hkey)))
  · cases h

theorem elements_suffix {fuel : Nat} {r : List Value × List Char}
    (h : elements item fuel cs = .ok r) : r.2 <:+ cs := by
  induction fuel generalizing cs r with
  | zero => cases h
  | succ fuel ih =>
    obtain ⟨us, hus, h⟩ := bind_eq_ok_iff.1 h
    refine List.IsSuffix.trans ?_ (gap_suffix hus)
    split at h
    · cases h
      exact List.tail_suffix us
    · obtain ⟨⟨v, vs⟩, hv, h⟩ := bind_eq_ok_iff.1 h
      obtain ⟨ws, hws, h⟩ := bind_eq_ok_iff.1 h
      refine List.IsSuffix.trans ?_ ((gap_suffix hws).trans (hitem hv))
      split at h
      · cases h
        exact List.tail_suffix ws
      · split at h
        · obtain ⟨s, hs, h⟩ := bind_eq_ok_iff.1 h
          cases h
          exact (ih hs).trans (List.tail_suffix ws)
        · cases h

theorem inlineEntries_suffix {fuel : Nat} {es : Entries} {closed : List (List String)}
    {r : Entries × List Char} (h : inlineEntries item fuel es closed cs = .ok r) : r.2 <:+ cs := by
  induction fuel generalizing cs r es closed with
  | zero => cases h
  | succ fuel ih =>
    obtain ⟨⟨key, v, us⟩, hus, h⟩ := bind_eq_ok_iff.1 h
    refine List.IsSuffix.trans ?_ ((List.dropWhile_suffix isBlank).trans (entry_suffix hitem hus))
    dsimp only at h
    split at h
    · cases h
    · split at h
      · cases h
      · split at h
        · cases h
          exact List.tail_suffix _
        · split at h
          · exact (ih h).trans ((List.dropWhile_suffix _).trans (List.tail_suffix _))
          · cases h

end

theorem shrinks_value (depth : Nat) : Shrinks (value depth) := by
  induction depth with
  | zero =>
    intro cs r h
    cases h
  | succ depth ih =>
    intro cs r h
    unfold value at h
    split at h
    · obtain ⟨s, hs, rfl⟩ := map_eq_ok_iff.1 h
      exact (elements_suffix ih hs).trans (List.tail_suffix cs)
    · split at h
      · have htable : cs.tail.dropWhile isBlank <:+ cs :=
          (List.dropWhile_suffix _).trans (List.tail_suffix cs)
        dsimp only at h
        split at h
        · cases h
          exact (List.tail_suffix _).trans htable
        · obtain ⟨s, hs, rfl⟩ := map_eq_ok_iff.1 h
          exact (inlineEntries_suffix ih hs).trans htable
      · exact scalar_suffix h

/-! ## Fuel -/

theorem length_tail_lt {c : Char} (h : cs.head? = some c) : cs.tail.length < cs.length := by
  cases cs with
  | nil => cases h
  | cons => exact Nat.lt_succ_self _

section

variable {item item' : List Char → Except Fault (Value × List Char)} (hitem : Shrinks item)

theorem entry_congr (hsame : ∀ us, us.length < cs.length → item us = item' us) :
    entry item cs = entry item' cs := by
  unfold entry
  split
  · rename_i key rest hkey
    have hrest : rest.length < cs.length := (key?_suffix hkey).length_le
    have hblank := (List.dropWhile_suffix (l := rest) isBlank).length_le
    rw [hsame _ (by omega)]
  · rfl

theorem inlineEntries_nil (item : List Char → Except Fault (Value × List Char)) (fuel : Nat)
    (es : Entries) (closed : List (List String)) :
    inlineEntries item fuel es closed [] = .error .malformed := by
  cases fuel with
  | zero => rfl
  | succ fuel =>
    have hentry : entry item [] = .error .malformed := by
      rw [entry, key?]
      rfl
    rw [inlineEntries, hentry]
    rfl

include hitem

theorem elements_congr {m n : Nat} (hsame : ∀ us, us.length ≤ cs.length → item us = item' us)
    (hm : cs.length < m) (hn : cs.length < n) : elements item m cs = elements item' n cs := by
  induction m generalizing cs n with
  | zero => exact absurd hm (Nat.not_lt_zero _)
  | succ m ih =>
    obtain ⟨n, rfl⟩ := Nat.exists_eq_succ_of_ne_zero (Nat.ne_zero_of_lt hn)
    rw [elements, elements]
    refine bind_congr_of_ok fun us hus => ?_
    have hgap := (gap_suffix hus).length_le
    rw [← hsame us hgap]
    split
    · rfl
    · refine bind_congr_of_ok fun r hr => ?_
      refine bind_congr_of_ok fun ws hws => ?_
      have hrest := ((gap_suffix hws).trans (hitem hr)).length_le
      split
      · rfl
      · split
        · rename_i hcomma
          have htail := length_tail_lt hcomma
          have hmore : elements item m ws.tail = elements item' n ws.tail :=
            ih (fun us hus => hsame us (by omega)) (by omega) (by omega)
          rw [hmore]
        · rfl

theorem inlineEntries_congr {m n : Nat} {es : Entries} {closed : List (List String)}
    (hsame : ∀ us, us.length < cs.length → item us = item' us) (hm : cs.length ≤ m)
    (hn : cs.length ≤ n) :
    inlineEntries item m es closed cs = inlineEntries item' n es closed cs := by
  induction m generalizing cs n es closed with
  | zero =>
    obtain rfl : cs = [] := List.length_eq_zero_iff.1 (Nat.le_zero.1 hm)
    rw [inlineEntries_nil, inlineEntries_nil]
  | succ m ih =>
    cases n with
    | zero =>
      obtain rfl : cs = [] := List.length_eq_zero_iff.1 (Nat.le_zero.1 hn)
      rw [inlineEntries_nil, inlineEntries_nil]
    | succ n =>
      rw [inlineEntries, inlineEntries, ← entry_congr hsame]
      refine bind_congr_of_ok ?_
      rintro ⟨key, v, us⟩ hus
      have hbefore := ((List.dropWhile_suffix isBlank).trans (entry_suffix hitem hus)).length_le
      dsimp only at hbefore ⊢
      split
      · rfl
      · split
        · rfl
        · split
          · rfl
          · split
            · rename_i hcomma
              have htail := length_tail_lt hcomma
              have hbehind := (List.dropWhile_suffix
                (l := (us.dropWhile isBlank).tail) isBlank).length_le
              exact ih (fun us hus => hsame us (by omega)) (by omega) (by omega)
            · rfl

end

/-- **No value is deeper than its text is long.** With more depth it is read, or refused, in the
same way. -/
theorem value_of_length_le {m n : Nat} (hm : cs.length ≤ m) (hn : cs.length ≤ n) :
    value m cs = value n cs := by
  -- the values inside stand behind a bracket, so that their texts are shorter
  induction m generalizing cs n with
  | zero =>
    obtain rfl : cs = [] := List.length_eq_zero_iff.1 (Nat.le_zero.1 hm)
    cases n <;> rfl
  | succ m ih =>
    cases n with
    | zero =>
      obtain rfl : cs = [] := List.length_eq_zero_iff.1 (Nat.le_zero.1 hn)
      rfl
    | succ n =>
      have hsame : ∀ us : List Char, us.length < cs.length → value m us = value n us :=
        fun us hus => ih (by omega) (by omega)
      rw [value, value]
      split
      · rename_i hlist
        have htail := length_tail_lt hlist
        rw [elements_congr (shrinks_value m) (fun us hus => hsame us (by omega)) htail htail]
      · split
        · rename_i htable
          have htail := length_tail_lt htable
          have hblank := (List.dropWhile_suffix (l := cs.tail) isBlank).length_le
          dsimp only
          rw [inlineEntries_congr (shrinks_value m) (fun us hus => hsame us (by omega))
            (Nat.le_refl _) (Nat.le_refl _)]
        · rfl

/-! ## Documents -/

theorem headerKey_suffix {closing : String} {r : List String × List Char}
    (h : headerKey closing cs = .ok r) : r.2 <:+ cs := by
  unfold headerKey at h
  split at h
  · rename_i hkey
    split at h
    · cases h
      exact (List.drop_suffix _ _).trans ((key?_suffix hkey).trans (List.dropWhile_suffix _))
    · cases h
  · cases h

theorem statement_suffix {d : Draft} {r : Draft × List Char} (h : statement d cs = .ok r) :
    r.2 <:+ cs := by
  unfold statement at h
  split at h
  · obtain ⟨s, hs, h⟩ := bind_eq_ok_iff.1 h
    obtain ⟨d', -, h⟩ := bind_eq_ok_iff.1 h
    cases h
    exact (headerKey_suffix hs).trans (List.drop_suffix _ _)
  · split at h
    · obtain ⟨s, hs, h⟩ := bind_eq_ok_iff.1 h
      obtain ⟨d', -, h⟩ := bind_eq_ok_iff.1 h
      cases h
      exact (headerKey_suffix hs).trans (List.tail_suffix _)
    · obtain ⟨s, hs, h⟩ := bind_eq_ok_iff.1 h
      obtain ⟨d', -, h⟩ := bind_eq_ok_iff.1 h
      cases h
      exact entry_suffix (shrinks_value _) hs

/-- **A text has no more statements than characters.** With more fuel it is read, or refused, in the
same way. -/
theorem statements_of_length_lt {d : Draft} {m n : Nat} (hm : cs.length < m) (hn : cs.length < n) :
    statements m d cs = statements n d cs := by
  induction m generalizing cs d n with
  | zero => exact absurd hm (Nat.not_lt_zero _)
  | succ m ih =>
    obtain ⟨n, rfl⟩ := Nat.exists_eq_succ_of_ne_zero (Nat.ne_zero_of_lt hn)
    have hblank := (List.dropWhile_suffix (l := cs) isBlank).length_le
    rw [statements, statements]
    split
    · rfl
    · rename_i rest hrest
      rw [hrest, List.length_cons] at hblank
      exact ih (by omega) (by omega)
    · have hnext : ∀ {x : Draft × List Char} {rest : List Char}, x.2 <:+ cs.dropWhile isBlank →
          comment (x.2.dropWhile isBlank) = .ok ('\n' :: rest) →
          statements m x.1 rest = statements n x.1 rest := by
        intro x rest hx hrest
        have hline := ((comment_suffix hrest).trans
          ((List.dropWhile_suffix isBlank).trans hx)).length_le
        rw [List.length_cons] at hline
        exact ih (by omega) (by omega)
      dsimp only
      split
      · refine bind_congr_of_ok fun x hx => bind_congr_of_ok fun rest hrest => ?_
        cases hx
        split
        · rfl
        · exact hnext List.suffix_rfl (mapError_eq_ok_iff.1 hrest)
        · rfl
      · refine bind_congr_of_ok fun x hx => bind_congr_of_ok fun rest hrest => ?_
        split
        · rfl
        · exact hnext (statement_suffix (mapError_eq_ok_iff.1 hx)) (mapError_eq_ok_iff.1 hrest)
        · rfl

end MacroModules.Toml
