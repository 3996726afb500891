import NoblesseOblige.Snfs.Remote
import NoblesseOblige.Snfs.Pieces

namespace NoblesseOblige.Snfs
open CString
set_option autoImplicit true

theorem dec_length {v : Int} (h : -2 ^ 31 ≤ v) (h' : v < 2 ^ 31) : (dec v).length ≤ 11 := by
  have hd : (decNat v.natAbs).length ≤ 10 :=
    (Nat.length_toDigits_le_iff (by decide) (by decide)).mpr (by omega)
  unfold dec
  split
  · rw [List.length_cons]
    omega
  · omega

theorem decNat_length (p : UInt64) : (decNat p.toNat).length ≤ 20 := by
  have := p.toNat_lt
  exact (Nat.length_toDigits_le_iff (by decide) (by decide)).mpr (by omega)

/-- A text of a response comes as far as `recv` gets. -/
theorem recvText_terminated {text : Text} (hn : nul ∉ text) (rest : List Char) (n : Nat) :
    recvText 4096 [((text ++ nul :: rest).take 4096).take n] = text.take (min n 4096) := by
  rw [recvText, List.take_take, List.take_take, cstr, takeWhile_take, ← cstr, cstr_append_nul hn]
  congr 1
  omega

theorem recvText_memory (os : Os) {text : Text} (hn : nul ∉ text) (hl : text.length ≤ 4096)
    (n : Nat) : recvText 4096 [((os.memory text).take 4096).take n] = text.take n := by
  rw [Os.memory, recvText_terminated hn, ← List.take_take, List.take_of_length_le hl]

/-- Values, each with what separates it from the next. -/
def fields (vs : List Int) : Text := vs.flatMap fun v => dec v ++ ", ".toList

theorem fields_cons (v : Int) (vs : List Int) (s : Text) :
    fields (v :: vs) ++ s = dec v ++ (", ".toList ++ (fields vs ++ s)) := by
  simp only [fields, List.flatMap_cons, List.append_assoc]

theorem commaSeparated_concat (vs : List Int) (v : Int) :
    commaSeparated (vs ++ [v]) = fields vs ++ dec v := by
  induction vs with
  | nil => rfl
  | cons w vs ih =>
    rw [fields_cons, ← ih]
    cases vs with
    | nil => rfl
    | cons x vs => rfl

theorem nul_notMem_fields (vs : List Int) : nul ∉ fields vs := by
  intro h
  obtain ⟨v, -, hv⟩ := List.mem_flatMap.mp h
  exact notMem_append (nul_notMem_dec v) (by decide) hv

theorem fields_length {vs : List Int} (h : ∀ v ∈ vs, -2 ^ 31 ≤ v ∧ v < 2 ^ 31) :
    (fields vs).length ≤ 13 * vs.length := by
  induction vs with
  | nil => exact Nat.le_refl 0
  | cons v vs ih =>
    have hv := h v List.mem_cons_self
    have hd := dec_length hv.1 hv.2
    have hvs := ih fun v hv => h v (List.mem_cons_of_mem _ hv)
    have hsep : (", ".toList).length = 2 := by decide
    rw [← List.append_nil (fields (v :: vs)), fields_cons, List.append_nil, List.length_append,
      List.length_append, List.length_cons, hsep]
    omega

theorem token_space (n : Nat) (s : Text) : token delim n (' ' :: s) = token delim n s := by
  cases n with
  | zero => exact congrArg Prod.fst (strtok_space s)
  | succ n => rw [token, token, strtok_space]

theorem token_fields (vs : List Int) (n : Nat) (s : Text) :
    token delim (vs.length + n) (fields vs ++ s) = token delim n s := by
  induction vs with
  | nil => rw [List.length_nil, Nat.zero_add]; rfl
  | cons v vs ih =>
    rw [fields_cons, List.length_cons, Nat.add_right_comm, token, (plain_dec v).strtok_sep,
      token_space, ih]

/-- `SNFS_getattr` reads a null pointer if there are not enough tokens. -/
theorem alone_statFields_of_none {s : Text} (h : token delim m s = none) (acc : List Int) :
    (statFields (m + 1) acc (strtok delim s).1).alone delim (strtok delim s).2 =
      .attributes none := by
  induction m generalizing s acc with
  | zero =>
    have hs : (strtok delim s).1 = none := h
    rw [hs]
    rfl
  | succ m ih =>
    cases hs : (strtok delim s).1 with
    | none => rfl
    | some t => exact ih h _

theorem alone_statFields {vs : List Int} (hv : ∀ v ∈ vs, -2 ^ 31 ≤ v ∧ v < 2 ^ 31) {w : Text}
    (hw : Plain w) (acc : List Int) {s : Text}
    (hs : strtok delim s = strtok delim (fields vs ++ w)) :
    (statFields (vs.length + 1) acc (strtok delim s).1).alone delim (strtok delim s).2 =
      .attributes (statOf (acc ++ (vs ++ [atoi w]))) := by
  induction vs generalizing acc s with
  | nil =>
    rw [hs.trans hw.strtok_end]
    rfl
  | cons v vs ih =>
    have h := hv v List.mem_cons_self
    rw [hs, fields_cons, (plain_dec v).strtok_sep, List.length_cons, statFields, Prog.alone,
      atoi_dec h.1 h.2, ih (fun w hw => hv w (List.mem_cons_of_mem v hw)) (acc ++ [v])
        (strtok_space _), List.append_assoc]
    rfl

theorem Plain.take (h : Plain s) (hn : 0 < n) : Plain (s.take n) := by
  refine ⟨fun he => ?_, fun c hc => h.2 c (List.mem_of_mem_take hc)⟩
  rcases List.take_eq_nil_iff.mp he with rfl | hs
  · exact absurd hn (Nat.lt_irrefl 0)
  · exact h.1 hs

/-- What `SNFS_getattr` makes of the first `n` characters of a response. The last of the values is
read as far as it has come. -/
theorem alone_statFields_take {vs : List Int} (hv : ∀ v ∈ vs, -2 ^ 31 ≤ v ∧ v < 2 ^ 31) (v : Int)
    {s : Text} (hs : s = (commaSeparated (vs ++ [v])).take n) :
    (statFields (vs.length + 1) [] (strtok delim s).1).alone delim (strtok delim s).2 =
      .attributes (if (fields vs).length < n then
        statOf (vs ++ [atoi ((dec v).take (n - (fields vs).length))]) else none) := by
  rw [commaSeparated_concat] at hs
  split
  · rename_i hlt
    rw [List.take_append, List.take_of_length_le (Nat.le_of_lt hlt)] at hs
    exact alone_statFields hv ((plain_dec v).take (by omega)) [] (congrArg _ hs)
  · rename_i hle
    rw [List.take_append_of_le_length (by omega)] at hs
    refine alone_statFields_of_none ?_ []
    have hnone : token delim vs.length (fields vs) = none := by
      have := token_fields vs 0 []
      rwa [List.append_nil] at this
    rcases token_append vs.length s ((fields vs).drop n) with ⟨h, -⟩ | ⟨w, u, -, h, -⟩
    · exact h
    · rw [hs, List.take_append_drop, hnone] at h
      cases h

theorem finish_readdir (path response : Text) : (Callback.readdir path).finish response =
    some { Return.of 0 with names := tokens delim response } := by
  rw [Callback.finish, Job.alone, readdirJob]
  cases hs : strtok delim response with
  | mk t s =>
    cases t with
    | none => rw [tokens_of_none hs]; rfl
    | some t => rw [tokens_of_some hs]; rfl

theorem modeT_toInt {n : Nat} (h : n < 2 ^ 32) : modeT (toInt n) = n := by
  rw [modeT, toInt, Int.bmod_def]
  omega

theorem Stat.ints_bounds (st : Stat) : ∀ v ∈ st.ints, -2 ^ 31 ≤ v ∧ v < 2 ^ 31 := by
  intro v hv
  obtain ⟨w, _, rfl⟩ := List.mem_map.mp hv
  exact toInt_bounds w

theorem statOf_ints (st : Stat) (size : Int) :
    ∃ st', statOf (st.ints.take 9 ++ [size]) = some st' ∧ st'.mode = st.mode ∧
      st'.uid = st.uid ∧ st'.gid = st.gid := by
  simp only [Stat.ints, List.map_cons, List.map_nil, List.take_succ_cons, List.take_zero,
    List.cons_append, List.nil_append, statOf, Option.some.injEq, exists_eq_left',
    modeT_toInt st.mode_lt, modeT_toInt st.uid_lt, modeT_toInt st.gid_lt, and_self]

/-- The callback of `getattr` takes a zero mode or owner for a failure. -/
theorem finish_getattr (path : Text) (st : Stat) (n : Nat) :
    ((Callback.getattr path).finish ((commaSeparated st.ints).take n)).map Return.value =
      if (fields (st.ints.take 9)).length < n then
        some (if st.mode = 0 ∨ st.uid = 0 ∨ st.gid = 0 then -ENOENT else 0)
      else none := by
  obtain ⟨size, hsize⟩ : ∃ size, st.ints = st.ints.take 9 ++ [size] := ⟨toInt st.size, rfl⟩
  have hl : (st.ints.take 9).length + 1 = 10 := rfl
  have h := alone_statFields_take (s := (commaSeparated st.ints).take n)
    (fun v hv => st.ints_bounds v (List.mem_of_mem_take hv)) size
    (congrArg (fun vs => (commaSeparated vs).take n) hsize)
  rw [hl] at h
  obtain ⟨st', hst, hm, hu, hg⟩ := statOf_ints st
    (atoi ((dec size).take (n - (fields (st.ints.take 9)).length)))
  rw [hst] at h
  rw [Callback.finish, Job.alone, getattrJob, h]
  by_cases hn : (fields (st.ints.take 9)).length < n
  · rw [if_pos hn, if_pos hn]
    simp only [Option.map_some, Return.of, hm, hu, hg, Nat.le_zero]
  · rw [if_neg hn, if_neg hn]
    rfl

end NoblesseOblige.Snfs
