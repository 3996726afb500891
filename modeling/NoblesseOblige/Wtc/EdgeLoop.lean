import NoblesseOblige.Wtc.Main

namespace NoblesseOblige.Wtc
open CString
set_option autoImplicit true

/-- `num_pt`, `num_ver` and what is left of the file after they are read. -/
def readHeader (file : Text) : Int × Int × Text :=
  let pt := (fscanf file 0).getD (0, file)
  let ver := (fscanf pt.2 0).getD (0, pt.2)
  (pt.1, ver.1, ver.2)

def numVer (file : Text) : Int := (readHeader file).2.1

/-- What the loop of `main` that reads the edges works on. -/
structure EdgeScan where
  i : Int
  j : Int
  fp : Text
  deriving DecidableEq

/-- The two scans of one iteration, unless one of them ends the loop. -/
def scanEdge (e : EdgeScan) : Option EdgeScan := do
  let (i, fp) ← fscanf e.fp e.i
  let (j, fp) ← fscanf fp e.j
  return ⟨i, j, fp⟩

/-- The iterations of the loop. The loops that initialize the matrix leave `num_ver` in `i` and
`j`, or 0 in `i` and `j` as it was if there are no rows. -/
def edgeLoop (file : Text) : System EdgeScan where
  init e := e.i = max (numVer file) 0 ∧ (0 < numVer file → e.j = numVer file) ∧
    e.fp = (readHeader file).2.2
  step e e' := scanEdge e = some e'

/-- The indices of `A[i-1][j-1]` are those of the matrix. -/
def EdgeScan.Inside (e : EdgeScan) (n : Int) : Prop :=
  (0 ≤ e.i - 1 ∧ e.i - 1 < n) ∧ (0 ≤ e.j - 1 ∧ e.j - 1 < n)

/-- One iteration of `fill` is one of the loop, and the write. -/
theorem fill_succ (n fuel : Nat) (e : EdgeScan) (A : Adjacency n) :
    fill n (fuel + 1) e.i e.j e.fp A =
      match scanEdge e with
      | none => some A
      | some e' =>
        if 1 ≤ e'.i ∧ e'.i ≤ n ∧ 1 ≤ e'.j ∧ e'.j ≤ n then
          fill n fuel e'.i e'.j e'.fp (A.set (e'.i - 1).toNat (e'.j - 1).toNat)
        else none := by
  rw [fill, scanEdge]
  cases fscanf e.fp e.i with
  | none => rfl
  | some p =>
    simp only [Option.bind_eq_bind, Option.bind_some]
    cases fscanf p.2 e.j <;> rfl

section
variable {file : Text} {e e' : EdgeScan}

theorem scanEdge_eq_some_iff : scanEdge e = some e' ↔
    ∃ fp, fscanf e.fp e.i = some (e'.i, fp) ∧ fscanf fp e.j = some (e'.j, e'.fp) := by
  constructor
  · intro h
    obtain ⟨⟨i, fp⟩, hi, h⟩ := Option.bind_eq_some_iff.mp h
    obtain ⟨⟨j, fp'⟩, hj, h⟩ := Option.bind_eq_some_iff.mp h
    cases h
    exact ⟨fp, hi, hj⟩
  · rintro ⟨fp, hi, hj⟩
    exact Option.bind_eq_some_iff.mpr ⟨_, hi, Option.bind_eq_some_iff.mpr ⟨_, hj, rfl⟩⟩

/-- A scan of numeric characters leaves fewer of them. -/
theorem fscanf_numeric (hs : ∀ c ∈ s, numeric c = true) (h : fscanf s v = some (w, t)) :
    (∀ c ∈ t, numeric c = true) ∧ t.length < s.length := by
  obtain ⟨u, rfl, -, hu⟩ := fscanf_spec h
  have ht : ∀ c ∈ t, numeric c = true := fun c hc => hs c (List.mem_append_right _ hc)
  refine ⟨ht, ?_⟩
  have hne : u ≠ [] := by
    intro hnil
    obtain ⟨c, hc, hn⟩ := hu hnil
    rw [ht c hc] at hn
    cases hn
  have := List.length_pos_iff.mpr hne
  rw [List.length_append]
  omega

theorem fscanf_obstacle (hs : ∃ c ∈ s, numeric c = false) (v : Int) :
    ∃ w t, fscanf s v = some (w, t) ∧ ∃ c ∈ t, numeric c = false := by
  obtain ⟨c, hc, hn⟩ := hs
  cases h : fscanf s v with
  | none =>
    have hb := fscanf_eq_none_iff.mp h c hc
    simp [numeric, hb] at hn
  | some p =>
    obtain ⟨u, hu, hnum, -⟩ := fscanf_spec (w := p.1) (t := p.2) h
    refine ⟨p.1, p.2, rfl, c, ?_, hn⟩
    rw [hu] at hc
    rcases List.mem_append.mp hc with hc | hc
    · rw [hnum c hc] at hn
      cases hn
    · exact hc

theorem scanEdge_numeric (he : ∀ c ∈ e.fp, numeric c = true) (h : scanEdge e = some e') :
    (∀ c ∈ e'.fp, numeric c = true) ∧ e'.fp.length < e.fp.length := by
  obtain ⟨fp, hi, hj⟩ := scanEdge_eq_some_iff.mp h
  obtain ⟨hfp, hlt⟩ := fscanf_numeric he hi
  obtain ⟨hfp', hlt'⟩ := fscanf_numeric hfp hj
  exact ⟨hfp', by omega⟩

theorem scanEdge_obstacle (he : ∃ c ∈ e.fp, numeric c = false) :
    ∃ e', scanEdge e = some e' ∧ ∃ c ∈ e'.fp, numeric c = false := by
  obtain ⟨i, fp, hi, hfp⟩ := fscanf_obstacle he e.i
  obtain ⟨j, fp', hj, hfp'⟩ := fscanf_obstacle hfp e.j
  exact ⟨⟨i, j, fp'⟩, scanEdge_eq_some_iff.mpr ⟨fp, hi, hj⟩, hfp'⟩

/-- Reading the header removes no character that is not numeric. -/
theorem fscanf_rest_numeric (s : Text) (v : Int) :
    (∀ c ∈ ((fscanf s v).getD (v, s)).2, numeric c = true) ↔ ∀ c ∈ s, numeric c = true := by
  cases h : fscanf s v with
  | none => rfl
  | some p =>
    obtain ⟨u, hu, hnum, -⟩ := fscanf_spec (w := p.1) (t := p.2) h
    rw [Option.getD_some, hu]
    constructor
    · intro ht c hc
      rcases List.mem_append.mp hc with hc | hc
      · exact hnum c hc
      · exact ht c hc
    · exact fun hs c hc => hs c (List.mem_append_right u hc)

theorem readHeader_numeric (file : Text) :
    (∀ c ∈ (readHeader file).2.2, numeric c = true) ↔ ∀ c ∈ file, numeric c = true := by
  rw [← fscanf_rest_numeric file 0, ← fscanf_rest_numeric ((fscanf file 0).getD (0, file)).2 0]
  rfl

/-- Where the loop starts. -/
def EdgeScan.start (file : Text) : EdgeScan :=
  ⟨max (numVer file) 0, numVer file, (readHeader file).2.2⟩

theorem EdgeScan.start_init (file : Text) : (edgeLoop file).init (start file) :=
  ⟨rfl, fun _ => rfl, rfl⟩

theorem edgeLoop_endless (h : ∃ c ∈ (readHeader file).2.2, numeric c = false) :
    ∃ run : Nat → EdgeScan, (edgeLoop file).init (run 0) ∧
      ∀ k, (edgeLoop file).step (run k) (run (k + 1)) :=
  System.endless (I := fun e => ∃ c ∈ e.fp, numeric c = false) (EdgeScan.start_init file) h
    fun _ he => scanEdge_obstacle he

/-- The loop ends exactly if the file holds nothing but numbers, signs and white space. -/
theorem edgeLoop_finite_iff (file : Text) :
    (¬ ∃ run : Nat → EdgeScan, (edgeLoop file).init (run 0) ∧
      ∀ k, (edgeLoop file).step (run k) (run (k + 1))) ↔
        ∀ c ∈ file, numeric c = true := by
  constructor
  · intro hfin
    rw [← readHeader_numeric]
    by_contra hn
    apply hfin
    apply edgeLoop_endless
    simpa using hn
  · intro hfile
    have hinv (e : EdgeScan) (h : (edgeLoop file).Reachable e) :
        ∀ c ∈ e.fp, numeric c = true := by
      refine h.invariant (fun e he => ?_) fun e e' he hs => (scanEdge_numeric he hs).1
      rw [he.2.2]
      exact (readHeader_numeric file).mpr hfile
    have hends : (edgeLoop file).Ends fun _ => True :=
      .of_measure (fun e => e.fp.length)
        (fun e e' he hs => (scanEdge_numeric (hinv e he) hs).2) fun _ _ _ => trivial
    exact hends.finite

end

/-- After the one edge of "1 1 x" nothing more is ever read. -/
theorem edgeLoop_not_finite : ¬ ∀ file : Text, ¬ ∃ run : Nat → EdgeScan,
    (edgeLoop file).init (run 0) ∧ ∀ k, (edgeLoop file).step (run k) (run (k + 1)) := by
  intro h
  exact h "1 1 x".toList (edgeLoop_endless ⟨'x', by decide, by decide⟩)

/-- What the scans of the first iterations find, up to one that meets the end of the file. -/
def conversions : Nat → Text → List (Option Int)
  | 0, _ => []
  | k + 1, fp =>
    match convert fp with
    | none => []
    | some (c, fp) =>
      match convert fp with
      | none => []
      | some (d, fp) => c :: d :: conversions k fp

section
variable {file : Text} {e e' : EdgeScan}

/-- An iteration and what its two scans find, which may leave `i` and `j` as they were. -/
theorem scanEdge_conversions (h : scanEdge e = some e') :
    ∃ c d, e'.i = c.getD e.i ∧ e'.j = d.getD e.j ∧
      ∀ k, conversions (k + 1) e.fp = c :: d :: conversions k e'.fp := by
  cases e' with
  | mk i j fp' =>
    obtain ⟨fp, hi, hj⟩ := scanEdge_eq_some_iff.mp h
    rw [fscanf_eq_convert] at hi hj
    obtain ⟨⟨c, t⟩, hc, hi'⟩ := Option.map_eq_some_iff.mp hi
    cases hi'
    obtain ⟨⟨d, t'⟩, hd, hj'⟩ := Option.map_eq_some_iff.mp hj
    cases hj'
    refine ⟨c, d, rfl, rfl, fun k => ?_⟩
    rw [conversions, hc]
    simp only [hd]

theorem conversions_of_end (h : scanEdge e = none) (k : Nat) : conversions k e.fp = [] := by
  cases k with
  | zero => rfl
  | succ k =>
    rw [conversions]
    cases hc : convert e.fp with
    | none => rfl
    | some p =>
      cases hd : convert p.2 with
      | none => simp only [hd]
      | some q =>
        have hs : scanEdge e = some ⟨p.1.getD e.i, q.1.getD e.j, q.2⟩ := by
          apply scanEdge_eq_some_iff.mpr
          refine ⟨p.2, ?_, ?_⟩
          · rw [fscanf_eq_convert, hc, Option.map_some]
          · rw [fscanf_eq_convert, hd, Option.map_some]
        rw [h] at hs
        cases hs

/-- The values `i` and `j` may hold and the numbers that are still to be read. -/
structure EdgeScan.Bounded (e : EdgeScan) (n : Int) : Prop where
  i : 1 ≤ e.i ∧ e.i ≤ n
  j : 1 ≤ e.j ∧ e.j ≤ n
  numbers : ∀ k v, some v ∈ conversions k e.fp → 1 ≤ v ∧ v ≤ n

theorem EdgeScan.Bounded.inside (h : e.Bounded n) : e.Inside n := by
  have hi := h.i
  have hj := h.j
  unfold EdgeScan.Inside
  omega

/-- A scan that finds no number leaves an earlier value, which is in bounds too. -/
theorem EdgeScan.Bounded.next (h : e.Bounded n) (hs : scanEdge e = some e') : e'.Bounded n := by
  obtain ⟨c, d, hi, hj, hk⟩ := scanEdge_conversions hs
  have hnum (v : Int) (k : Nat) (hv : some v ∈ c :: d :: conversions k e'.fp) : 1 ≤ v ∧ v ≤ n :=
    h.numbers (k + 1) v (by rw [hk]; exact hv)
  refine ⟨?_, ?_, fun k v hv => hnum v k (by simp [hv])⟩
  · rw [hi]
    cases c with
    | none => exact h.i
    | some v => exact hnum v 0 (by simp)
  · rw [hj]
    cases d with
    | none => exact h.j
    | some v => exact hnum v 0 (by simp)

theorem EdgeScan.init_bounded (he : (edgeLoop file).init e) (h1 : 1 ≤ numVer file)
    (hv : ∀ k v, some v ∈ conversions k (readHeader file).2.2 → 1 ≤ v ∧ v ≤ numVer file) :
    e.Bounded (numVer file) := by
  obtain ⟨hi, hj, hfp⟩ := he
  have hj := hj (by omega)
  exact ⟨by omega, by omega, hfp ▸ hv⟩

/-- If every iteration writes inside the matrix, every number it read was a vertex. -/
theorem vertex_of_inside (h : ∀ e e', (edgeLoop file).Reachable e → (edgeLoop file).step e e' →
      e'.Inside n) (he : (edgeLoop file).Reachable e) (k : Nat) (v : Int)
    (hv : some v ∈ conversions k e.fp) : 1 ≤ v ∧ v ≤ n := by
  induction k generalizing e with
  | zero => cases hv
  | succ k ih =>
    cases hs : scanEdge e with
    | none =>
      rw [conversions_of_end hs] at hv
      cases hv
    | some e' =>
      obtain ⟨c, d, hi, hj, hk⟩ := scanEdge_conversions hs
      have hin := h e e' he hs
      rw [EdgeScan.Inside] at hin
      rw [hk] at hv
      rcases List.mem_cons.mp hv with rfl | hv
      · rw [Option.getD_some] at hi
        omega
      · rcases List.mem_cons.mp hv with rfl | hv
        · rw [Option.getD_some] at hj
          omega
        · exact ih (he.next hs) hv

/-- Every edge is written inside the matrix exactly if there is none, or if there is a matrix and
every number that an iteration reads is one of its vertices. -/
theorem edges_inside_iff (file : Text) :
    (∀ e e', (edgeLoop file).Reachable e → (edgeLoop file).step e e' →
      e'.Inside (numVer file)) ↔
    conversions 1 (readHeader file).2.2 = [] ∨ (1 ≤ numVer file ∧
      ∀ k v, some v ∈ conversions k (readHeader file).2.2 → 1 ≤ v ∧ v ≤ numVer file) := by
  constructor
  · intro h
    have hstart := System.Reachable.start (EdgeScan.start_init file)
    cases hs : scanEdge (EdgeScan.start file) with
    | none => exact .inl (conversions_of_end hs 1)
    | some e =>
      have hin := h _ e hstart hs
      rw [EdgeScan.Inside] at hin
      exact .inr ⟨by omega, vertex_of_inside h hstart⟩
  · rintro (hnone | ⟨h1, hv⟩)
    · have hend (e : EdgeScan) (he : (edgeLoop file).init e) : scanEdge e = none := by
        cases hs : scanEdge e with
        | none => rfl
        | some e' =>
          obtain ⟨c, d, -, -, hk⟩ := scanEdge_conversions hs
          have := hk 0
          rw [he.2.2, hnone] at this
          cases this
      have hstuck (e e' : EdgeScan) (he : (edgeLoop file).init e)
          (hs : scanEdge e = some e') : False := by
        rw [hend e he] at hs
        cases hs
      intro e e' he hs
      have hinit : (edgeLoop file).init e :=
        he.invariant (fun _ h => h) fun e e' h hs => (hstuck e e' h hs).elim
      exact (hstuck e e' hinit hs).elim
    · intro e e' he hs
      have hb : e.Bounded (numVer file) :=
        he.invariant (fun e h => EdgeScan.init_bounded h h1 hv) fun _ _ h hs => h.next hs
      exact (hb.next hs).inside

/-- While a character that is not numeric is left `fill` does not come to its end. -/
theorem fill_obstacle (he : ∃ c ∈ e.fp, numeric c = false) (fuel : Nat) (A : Adjacency n) :
    fill n fuel e.i e.j e.fp A = none := by
  induction fuel generalizing e A with
  | zero => rfl
  | succ fuel ih =>
    obtain ⟨e', hs, he'⟩ := scanEdge_obstacle he
    rw [fill_succ, hs]
    dsimp only
    split
    · exact ih he' _
    · rfl

/-- With a turn for every character it does so exactly if every iteration writes inside the
matrix. -/
theorem fill_isSome_iff (hnum : ∀ c ∈ e.fp, numeric c = true) (hfuel : e.fp.length < fuel)
    (A : Adjacency n) : (fill n fuel e.i e.j e.fp A).isSome = true ↔
      ∀ d d', Relation.ReflTransGen (fun d d' => scanEdge d = some d') e d →
        scanEdge d = some d' → d'.Inside n := by
  induction fuel generalizing e A with
  | zero => exact absurd hfuel (Nat.not_lt_zero _)
  | succ fuel ih =>
    rw [fill_succ]
    cases hs : scanEdge e with
    | none =>
      have hstuck (d : EdgeScan) (hd : scanEdge e = some d) : False := by
        have := hs.symm.trans hd
        cases this
      refine ⟨fun _ d d' hr hd => ?_, fun _ => rfl⟩
      rcases hr.cases_head with rfl | ⟨e', he', -⟩
      · exact (hstuck d' hd).elim
      · exact (hstuck e' he').elim
    | some e' =>
      obtain ⟨hnum', hlt⟩ := scanEdge_numeric hnum hs
      dsimp only
      split
      · rename_i hin
        rw [ih hnum' (by omega)]
        constructor
        · intro h d d' hr hd
          rcases hr.cases_head with rfl | ⟨e₁, he₁, hr⟩
          · obtain rfl : e' = d' := Option.some.inj (hs.symm.trans hd)
            unfold EdgeScan.Inside
            omega
          · obtain rfl : e' = e₁ := Option.some.inj (hs.symm.trans he₁)
            exact h d d' hr hd
        · exact fun h d d' hr hd => h d d' (.head hs hr) hd
      · rename_i hout
        refine ⟨fun h => (by cases h), fun h => ?_⟩
        have hin := h e e' .refl hs
        unfold EdgeScan.Inside at hin
        omega

theorem main_eq (hopen : fopen name = some file) (h₁ : 1 ≤ atoi arg) (h₄ : atoi arg ≤ 4) :
    main [prog, arg, name] fopen =
      match fill (numVer file).toNat ((readHeader file).2.2.length + 1) (numVer file)
        (numVer file) (readHeader file).2.2 (.empty _) with
      | none => .undefined
      | some A => .running (chosen (atoi arg) (readHeader file).1.toNat A) := by
  have hrange : ¬ (atoi arg < 1 ∨ atoi arg > 4) := by omega
  simp only [main, if_neg hrange, hopen, numVer, readHeader]
  generalize fill _ _ _ _ _ (Adjacency.empty _) = r
  cases r <;> rfl

theorem EdgeScan.init_iff (hn : 1 ≤ numVer file) :
    (edgeLoop file).init e ↔ e = EdgeScan.start file := by
  constructor
  · rintro ⟨hi, hj, hfp⟩
    cases e with
    | mk i j fp => exact (EdgeScan.mk.injEq ..).mpr ⟨hi, hj (by omega), hfp⟩
  · rintro rfl
    exact EdgeScan.start_init file

/-- `main` comes to run one of the programs exactly if its loop ends and every edge is written
inside the matrix. -/
theorem main_running_iff (hopen : fopen name = some file) (h₁ : 1 ≤ atoi arg) (h₄ : atoi arg ≤ 4)
    (hn : 1 ≤ numVer file) : (∃ p, main [prog, arg, name] fopen = .running p) ↔
      (∀ c ∈ file, numeric c = true) ∧ ∀ e e', (edgeLoop file).Reachable e →
        (edgeLoop file).step e e' → e'.Inside (numVer file) := by
  have hstart : EdgeScan.start file = ⟨numVer file, numVer file, (readHeader file).2.2⟩ := by
    rw [EdgeScan.start, max_eq_left (by omega)]
  have hrun : (∃ p, main [prog, arg, name] fopen = .running p) ↔
      (fill (numVer file).toNat ((readHeader file).2.2.length + 1) (numVer file) (numVer file)
        (readHeader file).2.2 (.empty _)).isSome = true := by
    rw [main_eq hopen h₁ h₄]
    cases fill (numVer file).toNat ((readHeader file).2.2.length + 1) (numVer file) (numVer file)
      (readHeader file).2.2 (.empty _) with
    | none => simp
    | some A => simp
  rw [hrun, ← readHeader_numeric]
  by_cases hnum : ∀ c ∈ (readHeader file).2.2, numeric c = true
  · have hfill := fill_isSome_iff (e := EdgeScan.start file) hnum
      (Nat.lt_succ_self _) (.empty (numVer file).toNat)
    rw [Int.toNat_of_nonneg (by omega), hstart] at hfill
    refine hfill.trans ⟨fun h => ⟨hnum, ?_⟩, fun ⟨_, h⟩ d d' hr => ?_⟩
    · rintro e e' ⟨e₀, hi, hr⟩
      rw [EdgeScan.init_iff hn, hstart] at hi
      exact h e e' (hi ▸ hr)
    · exact h d d' ⟨_, (EdgeScan.init_iff hn).mpr hstart.symm, hr⟩
  · have hob : ∃ c ∈ (readHeader file).2.2, numeric c = false := by simpa using hnum
    have hnone := fill_obstacle (e := EdgeScan.start file) hob ((readHeader file).2.2.length + 1)
      (.empty (numVer file).toNat)
    rw [hstart] at hnone
    rw [hnone]
    exact ⟨fun h => (by cases h), fun h => absurd h.1 hnum⟩

end

/-- A vertex that is not there. -/
theorem edges_not_inside : ¬ ∀ (file : Text) (e e' : EdgeScan), (edgeLoop file).Reachable e →
    (edgeLoop file).step e e' → e'.Inside (numVer file) := by
  intro h
  have hs : scanEdge (EdgeScan.start "1 2 3 1".toList) = some ⟨3, 1, []⟩ := by decide
  have := h "1 2 3 1".toList _ _ (System.Reachable.start (EdgeScan.start_init _)) hs
  revert this
  unfold EdgeScan.Inside
  decide

end NoblesseOblige.Wtc
