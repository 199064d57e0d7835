import XrdHdfs.Record

/-!
# The grammar of a checksum record

What `Parse` accepts, said without its loop.  A run of a text is a longest piece of it without white space, and
`Runs s` lists them from left to right.  `parse_grammar`: the text is accepted if and only if each run has a name, a
colon and a value, and behind it comes a line feed or nothing; then the entries are the runs.

The white space that `sscanf` skips stands before the first run, so that one turn of the loop takes the first run off,
and the runs of what is left are the others.
-/

namespace XrdHdfs

/-! ### Runs -/

/-- A piece of a text, with what stands before and after it. -/
structure Run where
  before : Bytes
  word : Bytes
  after : Bytes

/-- A longest piece of `s` without white space. -/
structure Run.In (r : Run) (s : Bytes) : Prop where
  eq : s = r.before ++ r.word ++ r.after
  ne : r.word ≠ []
  word : ∀ c ∈ r.word, !isspace c
  start : ∀ c ∈ r.before.getLast?, isspace c
  stop : ∀ c ∈ r.after.head?, isspace c

/-- The runs of `s`, from left to right. -/
structure Runs (s : Bytes) (rs : List Run) : Prop where
  mem : ∀ r, r ∈ rs ↔ r.In s
  order : rs.Pairwise fun r r' => r.before.length < r'.before.length

/-- The run in a longer text, which has `s` before. -/
def Run.behind (s : Bytes) (r : Run) : Run := { r with before := s ++ r.before }

/-- Two characters at least, a colon with something behind it, and then the end of the line or of the text. -/
def Run.IsEntry (r : Run) : Prop :=
  2 ≤ r.word.length ∧ (∃ name val, r.word = name ++ 58 :: val ∧ 58 ∉ name ∧ val ≠ []) ∧
    (r.after.head? = some 10 ∨ r.after = [])

/-- The two sides of the first colon. -/
def cutAtColon (word : Bytes) : ChecksumValue := (word.takeWhile (· ≠ 58), (word.dropWhile (· ≠ 58)).drop 1)

/-- The place where a word ends is determined. -/
theorem word_unique {x a w t : Bytes} (hx : ∀ c ∈ x, !isspace c) (ha : ∀ c ∈ a.head?, isspace c)
    (hw : ∀ c ∈ w, !isspace c) (ht : ∀ c ∈ t.head?, isspace c) (h : x ++ a = w ++ t) : x = w ∧ a = t := by
  rcases List.append_eq_append_iff.1 h with ⟨v, hv, hat⟩ | ⟨v, hv, hat⟩
  · rcases v with _ | ⟨e, v⟩
    · exact ⟨by simpa using hv.symm, by simpa using hat⟩
    · have hspace := ha e (by simp [hat])
      have hword := hw e (by simp [hv])
      simp [hspace] at hword
  · rcases v with _ | ⟨e, v⟩
    · exact ⟨by simpa using hv, by simpa using hat.symm⟩
    · have hspace := ht e (by simp [hat])
      have hword := hx e (by simp [hv])
      simp [hspace] at hword

/-- The word that `sscanf` reads is a run. -/
theorem Scanned.isRun {s ws w t : Bytes} (hs : Scanned s ws w t) : Run.In ⟨ws, w, t⟩ s :=
  ⟨hs.eq, hs.ne, hs.word, fun _ hc => hs.space _ (List.mem_of_getLast? hc), hs.stop⟩

/-- The runs of what is left are runs of the text. -/
theorem Run.In.behind {s ws w t : Bytes} (hs : Scanned s ws w t) {r : Run} (hr : r.In t) :
    (r.behind (ws ++ w)).In s := by
  refine ⟨?_, hr.ne, hr.word, fun c hc => ?_, hr.stop⟩
  · rw [hs.eq, hr.eq]
    simp [Run.behind]
  · rcases hb : r.before with _ | ⟨d, b⟩
    · -- what is left starts with white space, so no run starts there
      obtain ⟨e, x, hx⟩ := List.exists_cons_of_ne_nil hr.ne
      have hspace := hs.stop e (by simp [hr.eq, hb, hx])
      have hword := hr.word e (by simp [hx])
      simp [hspace] at hword
    · refine hr.start c ?_
      rw [hb]
      simpa [Run.behind, hb, List.getLast?_append] using hc

/-- The first run of a text is the word that `sscanf` reads, and the others are those of what is left. -/
theorem Run.In.cases {s ws w t : Bytes} (hs : Scanned s ws w t) {r : Run} (hr : r.In s) :
    r = ⟨ws, w, t⟩ ∨ ∃ r' : Run, r'.In t ∧ r = r'.behind (ws ++ w) := by
  obtain ⟨b, x, a⟩ := r
  have heq : b ++ (x ++ a) = ws ++ (w ++ t) := by
    have h := hr.eq
    rw [hs.eq] at h
    simpa using h.symm
  obtain ⟨c, x', hx⟩ := List.exists_cons_of_ne_nil hr.ne
  dsimp only at hx
  have hc : !isspace c := hr.word c (by simp [hx])
  rcases List.append_eq_append_iff.1 heq with ⟨u, hws, hrest⟩ | ⟨u, hb, hrest⟩
  · -- the run does not start in the white space
    rcases u with _ | ⟨e, u⟩
    · obtain ⟨rfl, rfl⟩ := word_unique hr.word hr.stop hs.word hs.stop hrest
      exact Or.inl (by rw [hws, List.append_nil])
    · rw [hx, List.cons_append, List.cons_append] at hrest
      have hspace := hs.space e (by simp [hws])
      rw [← (List.cons.inj hrest).1] at hspace
      simp [hspace] at hc
  rcases List.append_eq_append_iff.1 hrest with ⟨v, rfl, hat⟩ | ⟨v, hv, hat⟩
  · right
    refine ⟨⟨v, x, a⟩, ⟨by simpa using hat, hr.ne, hr.word, fun d hd => ?_, hr.stop⟩, by simp [Run.behind, hb]⟩
    refine hr.start d ?_
    have hd' : v.getLast? = some d := hd
    simp [hb, List.getLast?_append, hd']
  · -- nor inside the word
    rcases List.eq_nil_or_concat u with rfl | ⟨u', e, rfl⟩
    · obtain ⟨rfl, rfl⟩ := word_unique hr.word hr.stop hs.word hs.stop hrest.symm
      exact Or.inl (by rw [hb, List.append_nil])
    · have hspace := hr.start e (by simp [hb])
      have hword := hs.word e (by simp [hv])
      simp [hspace] at hword

theorem Runs.scanned {s ws w t : Bytes} (hs : Scanned s ws w t) {rs : List Run} (h : Runs t rs) :
    Runs s (⟨ws, w, t⟩ :: rs.map (Run.behind (ws ++ w))) := by
  constructor
  · intro r
    constructor
    · intro hr
      rcases List.mem_cons.1 hr with rfl | hr
      · exact hs.isRun
      · obtain ⟨r', hr', rfl⟩ := List.mem_map.1 hr
        exact ((h.mem r').1 hr').behind hs
    · intro hr
      rcases hr.cases hs with rfl | ⟨r', hr', rfl⟩
      · exact List.mem_cons_self
      · exact List.mem_cons_of_mem _ (List.mem_map_of_mem ((h.mem r').2 hr'))
  · refine List.pairwise_cons.2 ⟨fun r hr => ?_, ?_⟩
    · obtain ⟨r', -, rfl⟩ := List.mem_map.1 hr
      have hpos := List.length_pos_iff.2 hs.ne
      simp only [Run.behind, List.length_append]
      omega
    · refine List.pairwise_map.2 (h.order.imp fun hlt => ?_)
      simpa [Run.behind] using hlt

theorem Runs.nil_of_space {s : Bytes} (h : ∀ c ∈ s, isspace c) : Runs s [] := by
  refine ⟨fun r => ⟨fun hr => absurd hr List.not_mem_nil, fun hr => ?_⟩, List.Pairwise.nil⟩
  obtain ⟨c, x, hx⟩ := List.exists_cons_of_ne_nil hr.ne
  have hword := hr.word c (by simp [hx])
  have hspace := h c (by simp [hr.eq, hx])
  simp [hspace] at hword

/-! ### Words -/

theorem cutAtColon_eq {name val : Bytes} (hname : 58 ∉ name) : cutAtColon (name ++ 58 :: val) = (name, val) := by
  have hpos : ∀ c ∈ name, decide (c ≠ 58) = true := by
    intro c hc
    simp only [ne_eq, decide_not, Bool.not_eq_eq_eq_not, Bool.not_true, decide_eq_false_iff_not]
    rintro rfl
    exact hname hc
  unfold cutAtColon
  rw [List.takeWhile_append_of_pos hpos, List.dropWhile_append_of_pos hpos]
  simp

/-- What `Parse` asks of a word alone. -/
theorem splitEntry_eq_some_iff (w : Bytes) : (splitEntry w).isSome ↔
    2 ≤ w.length ∧ ∃ name val, w = name ++ 58 :: val ∧ 58 ∉ name ∧ val ≠ [] := by
  constructor
  · intro h
    obtain ⟨e, he⟩ := Option.isSome_iff_exists.1 h
    obtain ⟨hw, hname, hval⟩ := splitEntry_eq_some.1 he
    refine ⟨?_, e.1, e.2, hw, hname, hval⟩
    have hpos := List.length_pos_iff.2 hval
    rw [hw, List.length_append, List.length_cons]
    omega
  · rintro ⟨-, name, val, hw, hname, hval⟩
    have he : splitEntry w = some (name, val) := splitEntry_eq_some.2 ⟨hw, hname, hval⟩
    rw [he]
    rfl

theorem cutAtColon_of_splitEntry {w : Bytes} {e : ChecksumValue} (h : splitEntry w = some e) : cutAtColon w = e := by
  obtain ⟨hw, hname, -⟩ := splitEntry_eq_some.1 h
  rw [hw, cutAtColon_eq hname]

/-! ### The loop -/

/-- White space at the start makes no difference. -/
theorem parseText_space {c : UInt8} (hc : isspace c) (s : Bytes) : parseText (c :: s) = parseText s := by
  have hscan : sscanf (c :: s) = sscanf s := by
    unfold sscanf
    rw [List.dropWhile_cons_of_pos hc]
  rcases hs : sscanf s with _ | ⟨w, t⟩
  · rw [parseText_of_none hs, parseText_of_none (hscan.trans hs)]
  · obtain ⟨ws, hsc⟩ := scanned_of_sscanf hs
    obtain ⟨ws', hsc'⟩ := scanned_of_sscanf (hscan.trans hs)
    rw [parseText_scanned hsc, parseText_scanned hsc']

/-- What the grammar says of a text and of what the loop made of it. -/
def Grammatical (s : Bytes) (out : ℤ × ChecksumValues) : Prop :=
  ∃ rs, Runs s rs ∧ (out.1 = 0 ↔ ∀ r ∈ rs, r.IsEntry) ∧ (out.1 = 0 → out.2 = rs.map fun r => cutAtColon r.word)

/-- One turn. -/
theorem Grammatical.turn {s ws w t : Bytes} (hs : Scanned s ws w t) (h : Grammatical t (parseText t)) :
    Grammatical s (parseWord parseText w t) := by
  obtain ⟨rs, hruns, hzero, hout⟩ := h
  refine ⟨_, hruns.scanned hs, ?_⟩
  have hrest : (∀ r ∈ rs.map (Run.behind (ws ++ w)), r.IsEntry) ↔ ∀ r ∈ rs, r.IsEntry := by
    rw [List.forall_mem_map]
    exact Iff.rfl
  rw [List.forall_mem_cons, hrest, ← hzero, List.map_cons, List.map_map]
  have hword := splitEntry_eq_some_iff w
  rcases he : splitEntry w with _ | e
  · have hbad : ¬ Run.IsEntry ⟨ws, w, t⟩ := by
      rintro ⟨hlen, hcolon, -⟩
      have hsome := hword.2 ⟨hlen, hcolon⟩
      simp [he] at hsome
    unfold parseWord
    rw [he]
    exact ⟨iff_of_false (show ¬ - EIO = 0 by decide) fun h => hbad h.1, fun h => absurd h (show ¬ - EIO = 0 by decide)⟩
  rw [he] at hword
  obtain ⟨hlen, hcolon⟩ := hword.1 rfl
  rcases t with _ | ⟨c, t⟩
  · have hentry : Run.IsEntry ⟨ws, w, []⟩ := ⟨hlen, hcolon, Or.inr rfl⟩
    have hout' := hout rfl
    unfold parseWord
    rw [he]
    refine ⟨iff_of_true rfl ⟨hentry, rfl⟩, fun _ => ?_⟩
    rw [cutAtColon_of_splitEntry he]
    have hnil : rs = [] := by
      simpa [parseText_nil] using hout'.symm
    rw [hnil]
    rfl
  rcases eq_or_ne c 10 with rfl | hc
  · have hentry : Run.IsEntry ⟨ws, w, 10 :: t⟩ := ⟨hlen, hcolon, Or.inl rfl⟩
    rw [parseWord_newline he]
    rw [parseText_space (by decide)] at hout ⊢
    refine ⟨⟨fun h => ⟨hentry, h⟩, fun h => h.2⟩, fun h => ?_⟩
    dsimp only
    rw [cutAtColon_of_splitEntry he, hout h]
    rfl
  · have hbad : ¬ Run.IsEntry ⟨ws, w, c :: t⟩ := by
      rintro ⟨-, -, hnext⟩
      simp [hc] at hnext
    unfold parseWord
    rw [he]
    dsimp only
    rw [if_pos hc]
    exact ⟨iff_of_false (show ¬ - EIO = 0 by decide) fun h => hbad h.1, fun h => absurd h (show ¬ - EIO = 0 by decide)⟩

theorem grammatical_parseText (s : Bytes) : Grammatical s (parseText s) := by
  -- by induction on the length: a turn takes a run off
  induction hn : s.length using Nat.strong_induction_on generalizing s with
  | _ n ih =>
    rcases hs : sscanf s with _ | ⟨w, t⟩
    · rw [parseText_of_none hs]
      exact ⟨[], .nil_of_space (sscanf_eq_none hs), iff_of_true rfl (by simp), fun _ => rfl⟩
    · obtain ⟨ws, hsc⟩ := scanned_of_sscanf hs
      have hlt := hsc.length_lt
      rw [parseText_scanned hsc]
      exact .turn hsc (ih t.length (by omega) t rfl)

/-! ### The end of the loop -/

/-- The loop with `stop` in the place of its turns after the first `k`. -/
def parseTurns (stop : Bytes → ℤ × ChecksumValues) : ℕ → Bytes → ℤ × ChecksumValues
  | 0, ptr => stop ptr
  | k + 1, ptr =>
    match sscanf ptr with
    | none => (0, [])
    | some (token, rest) => parseWord (parseTurns stop k) token rest

/-- The loop has ended when it has made a turn for each character, and one more. -/
theorem parseTurns_eq (stop : Bytes → ℤ × ChecksumValues) {k : ℕ} {s : Bytes} (h : s.length < k) :
    parseTurns stop k s = parseText s := by
  induction k generalizing s with
  | zero => exact absurd h (Nat.not_lt_zero _)
  | succ k ih =>
    unfold parseTurns
    rcases hs : sscanf s with _ | ⟨w, t⟩
    · rw [parseText_of_none hs]
    · obtain ⟨ws, hsc⟩ := scanned_of_sscanf hs
      have hlt := hsc.length_lt
      rw [parseText_scanned hsc]
      exact parseWord_congr fun t ht => ih (by omega)

/-- **What `Parse` accepts, and what it makes of it.**  It ends, whatever might come after that many turns; it returns 0
if and only if each run of the text is an entry; and then the entries are the runs, each cut at its first colon. -/
theorem parse_grammar (text : Bytes) (h0 : 0 ∉ text) :
    (∀ stop, parseTurns stop (text.length + 1) text = parse text) ∧
      ∃ rs, Runs text rs ∧ ((parse text).1 = 0 ↔ ∀ r ∈ rs, r.IsEntry) ∧
        ((parse text).1 = 0 → (parse text).2 = rs.map fun r => cutAtColon r.word) := by
  have hparse : parse text = parseText text := by
    rw [parse, cstr_eq_self h0]
  rw [hparse]
  exact ⟨fun stop => parseTurns_eq stop (Nat.lt_succ_self _), grammatical_parseText text⟩

/-- A line with two colons, an empty one and a line without its line feed. -/
theorem parse_grammar_lines : 0 ∉ str "a:1:2\n\nb:3" ∧
    (∀ stop, parseTurns stop ((str "a:1:2\n\nb:3").length + 1) (str "a:1:2\n\nb:3") = parse (str "a:1:2\n\nb:3")) ∧
      ∃ rs, Runs (str "a:1:2\n\nb:3") rs ∧ ((parse (str "a:1:2\n\nb:3")).1 = 0 ↔ ∀ r ∈ rs, r.IsEntry) ∧
        ((parse (str "a:1:2\n\nb:3")).1 = 0 →
          (parse (str "a:1:2\n\nb:3")).2 = rs.map fun r => cutAtColon r.word) :=
  have h0 : 0 ∉ str "a:1:2\n\nb:3" := by decide
  ⟨h0, parse_grammar _ h0⟩

end XrdHdfs
