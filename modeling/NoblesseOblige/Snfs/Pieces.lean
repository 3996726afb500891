import NoblesseOblige.Token
import NoblesseOblige.Snfs.Write

namespace NoblesseOblige.Snfs
open CString
set_option autoImplicit true

/-- What a call makes the server do. Of the buffer of a write only what is written counts. -/
inductive Action
  | remote (call : Call)
  | pwrite (fd : Int) (data : List Char) (size : Nat) (offset : Int)
  deriving DecidableEq

def Call.action : Call → Option Action
  | .write pointer size offset buffer =>
    (remoteWrite pointer size offset buffer).map fun w => .pwrite w.fd w.data w.size w.offset
  | call => some (.remote call)

/-- What the server does for a request that comes in these pieces. -/
def executed (pieces : List Text) : Option Action := (served pieces).bind Call.action

/-- How many tokens an operation reads after its name, and whether the last one is a number. -/
def operands (name : Text) : Option (Nat × Bool) :=
  if name ∈ ["readdir".toList, "getattr".toList, "opendir".toList, "releasedir".toList,
      "release".toList, "unlink".toList] then some (1, false)
  else if name ∈ ["mkdir".toList, "open".toList, "truncate".toList, "create".toList] then
    some (2, true)
  else if name ∈ ["read".toList, "write".toList] then some (3, true)
  else none

def afterCommas : Nat → Text → Option Text
  | 0, s => some s
  | n + 1, s => (afterComma s).bind (afterCommas n)

/-- The data of a write request: what follows its fourth comma. -/
def payload (r : Text) : Option Text := afterCommas 4 r

/-- The request names an operation and has its operands, a write also its data. -/
def Complete (r : Text) (m : Nat) (num : Bool) : Prop :=
  ∃ name, token delim 0 r = some name ∧ operands name = some (m, num) ∧
    (token delim m r).isSome = true ∧ (name = "write".toList → (payload r).isSome = true)

/-- The first `k` characters of a complete request reach to the end of the last operand, or as far
into it as its number is already the same, and to the end of what a write is to write. -/
def Enough (r : Text) (k : Nat) : Prop :=
  ∀ m num, Complete r m num →
    (tokenEnd delim m r ≤ k ∨
      num = true ∧ (token delim m (r.take k)).map atoi = (token delim m r).map atoi) ∧
    (token delim 0 r = some "write".toList → ∀ size d, token delim 2 r = some size →
      payload r = some d → r.length - d.length + sizeT (atoi size) ≤ k ∨ r.length ≤ k)

theorem remoteWrite_eq (pointer : Text) (size : Nat) (offset : Int) (buffer : Text) :
    remoteWrite pointer size offset buffer =
      (payload buffer).map fun d => ⟨atoi pointer, d, size, offset⟩ := by
  simp only [remoteWrite, payload, afterCommas, Option.bind_eq_bind, Option.map_bind,
    Function.comp_def, Option.map_some, Option.pure_def]

theorem afterComma_cons (c : Char) (s : Text) :
    afterComma (c :: s) = if c = ',' then some s else afterComma s := by
  by_cases h : c = ','
  · subst h
    rfl
  · have hd : (c :: s).dropWhile (· ≠ ',') = s.dropWhile (· ≠ ',') :=
      List.dropWhile_cons_of_pos (decide_eq_true h)
    rw [if_neg h, afterComma, afterComma, strchr, strchr, hd]

/-- In a text that goes on the next comma is where it was, or is in what comes after. -/
theorem afterComma_append (p t : Text) :
    (afterComma p = none ∧ afterComma (p ++ t) = afterComma t) ∨
      ∃ q, q.length ≤ p.length ∧ afterComma p = some q ∧ afterComma (p ++ t) = some (q ++ t) := by
  induction p with
  | nil => exact .inl ⟨rfl, rfl⟩
  | cons c p ih =>
    rw [List.cons_append, afterComma_cons, afterComma_cons, List.length_cons]
    by_cases h : c = ','
    · rw [if_pos h, if_pos h]
      exact .inr ⟨p, by omega, rfl, rfl⟩
    · rw [if_neg h, if_neg h]
      refine ih.imp_right ?_
      rintro ⟨q, hq, hp, hpt⟩
      exact ⟨q, by omega, hp, hpt⟩

theorem afterComma_length (h : afterComma s = some d) : d.length < s.length := by
  induction s with
  | nil => cases h
  | cons c s ih =>
    rw [afterComma_cons] at h
    rw [List.length_cons]
    split at h
    · cases h
      omega
    · have := ih h
      omega

theorem afterCommas_length (h : afterCommas (n + 1) s = some d) : d.length < s.length := by
  induction n generalizing s with
  | zero =>
    obtain ⟨q, hq, hd⟩ := Option.bind_eq_some_iff.mp h
    cases hd
    exact afterComma_length hq
  | succ n ih =>
    obtain ⟨q, hq, hd⟩ := Option.bind_eq_some_iff.mp h
    exact Nat.lt_trans (ih hd) (afterComma_length hq)

theorem afterCommas_append (n : Nat) (p t : Text) :
    (afterCommas n p = none ∧ ∀ d, afterCommas n (p ++ t) = some d → d.length < t.length) ∨
      ∃ q, q.length ≤ p.length ∧ afterCommas n p = some q ∧
        afterCommas n (p ++ t) = some (q ++ t) := by
  induction n generalizing p with
  | zero => exact .inr ⟨p, Nat.le_refl _, rfl, rfl⟩
  | succ n ih =>
    rcases afterComma_append p t with ⟨hp, hpt⟩ | ⟨q, hq, hp, hpt⟩
    · refine .inl ⟨by rw [afterCommas, hp, Option.bind_none], fun d hd => ?_⟩
      rw [afterCommas, hpt] at hd
      exact afterCommas_length hd
    · rw [afterCommas, afterCommas, hp, hpt, Option.bind_some, Option.bind_some]
      refine (ih q).imp_right ?_
      rintro ⟨d, hd, hqd, hqtd⟩
      exact ⟨d, by omega, hqd, hqtd⟩

theorem payload_append (p t : Text) :
    (payload p = none ∧ ∀ d, payload (p ++ t) = some d → d.length < t.length) ∨
      ∃ q, q.length ≤ p.length ∧ payload p = some q ∧ payload (p ++ t) = some (q ++ t) :=
  afterCommas_append 4 p t

/-- The bytes written are the same with and without `t` only if they are there without it. -/
theorem take_terminated_iff {q t : Text} (ht : nul ∉ t) :
    (q ++ [nul]).take n = (q ++ t ++ [nul]).take n ↔ n ≤ q.length ∨ t = [] := by
  constructor
  · intro h
    refine (Nat.lt_or_ge q.length n).symm.imp id fun hlt => ?_
    have hi := congrArg (·[q.length]?) h
    simp only [List.getElem?_take, if_pos hlt, List.append_assoc,
      List.getElem?_append_right (Nat.le_refl _), Nat.sub_self] at hi
    cases t with
    | nil => rfl
    | cons c t =>
      cases hi
      exact absurd List.mem_cons_self ht
  · rintro (h | rfl)
    · rw [List.append_assoc, List.take_append_of_le_length h, List.take_append_of_le_length h]
    · rw [List.append_nil]

/-- The switch of the handler, by the number and the kind of the operands. -/
inductive Switch (name : Text) : Prop
  | unknown (h : operands name = none) (hs : ∀ r, requestHandler r (some name) = .ret none)
  | one (call : Text → Call) (h : operands name = some (1, false))
      (hs : ∀ r, requestHandler r (some name) = withToken call)
      (hw : name ≠ "write".toList) (ha : ∀ s, (call s).action = some (.remote (call s)))
      (hc : ∀ s t, call s = call t → s = t)
  | two (call : Text → Int → Call) (h : operands name = some (2, true))
      (hs : ∀ r, requestHandler r (some name) = withTokenAtoi call)
      (hw : name ≠ "write".toList) (ha : ∀ s v, (call s v).action = some (.remote (call s v)))
      (hc : ∀ s b b', call s (atoi b) = call s (atoi b') → atoi b = atoi b')
  | three (call : Text → Int → Int → Call) (h : operands name = some (3, true))
      (hs : ∀ r, requestHandler r (some name) = withTokenAtoiAtoi call)
      (hw : name ≠ "write".toList)
      (ha : ∀ s v w, (call s v w).action = some (.remote (call s v w)))
      (hc : ∀ s v w w', call s v w = call s v w' → w = w')
  | write (h : name = "write".toList)

theorem modeT_atoi (s t : Text) (h : modeT (atoi s) = modeT (atoi t)) : atoi s = atoi t := by
  have hs := toInt_bounds (strtol s)
  have ht := toInt_bounds (strtol t)
  unfold modeT at h
  unfold atoi at h ⊢
  omega

theorem switch (name : Text) : Switch name := by
  by_cases h₁ : name = "readdir".toList
  · subst h₁
    exact .one .readdir (by decide) requestHandler_readdir (by decide) (fun _ => rfl)
      fun _ _ => Call.readdir.inj
  by_cases h₂ : name = "getattr".toList
  · subst h₂
    exact .one .getattr (by decide) requestHandler_getattr (by decide) (fun _ => rfl)
      fun _ _ => Call.getattr.inj
  by_cases h₃ : name = "opendir".toList
  · subst h₃
    exact .one .opendir (by decide) requestHandler_opendir (by decide) (fun _ => rfl)
      fun _ _ => Call.opendir.inj
  by_cases h₄ : name = "releasedir".toList
  · subst h₄
    exact .one .releasedir (by decide) requestHandler_releasedir (by decide) (fun _ => rfl)
      fun _ _ => Call.releasedir.inj
  by_cases h₅ : name = "mkdir".toList
  · subst h₅
    exact .two _ (by decide) requestHandler_mkdir (by decide) (fun _ _ => rfl)
      fun _ b b' h => modeT_atoi b b' (Call.mkdir.inj h).2
  by_cases h₆ : name = "read".toList
  · subst h₆
    exact .three _ (by decide) requestHandler_read (by decide) (fun _ _ _ => rfl)
      fun _ _ _ _ h => (Call.read.inj h).2.2
  by_cases h₇ : name = "open".toList
  · subst h₇
    exact .two .open (by decide) requestHandler_open (by decide) (fun _ _ => rfl)
      fun _ _ _ h => (Call.open.inj h).2
  by_cases h₈ : name = "release".toList
  · subst h₈
    exact .one .release (by decide) requestHandler_release (by decide) (fun _ => rfl)
      fun _ _ => Call.release.inj
  by_cases h₉ : name = "write".toList
  · exact .write h₉
  by_cases h₁₀ : name = "truncate".toList
  · subst h₁₀
    exact .two .truncate (by decide) requestHandler_truncate (by decide) (fun _ _ => rfl)
      fun _ _ _ h => (Call.truncate.inj h).2
  by_cases h₁₁ : name = "create".toList
  · subst h₁₁
    exact .two _ (by decide) requestHandler_create (by decide) (fun _ _ => rfl)
      fun _ b b' h => modeT_atoi b b' (Call.create.inj h).2
  by_cases h₁₂ : name = "unlink".toList
  · subst h₁₂
    exact .one .unlink (by decide) requestHandler_unlink (by decide) (fun _ => rfl)
      fun _ _ => Call.unlink.inj
  refine .unknown ?_ fun r => ?_
  · simp only [operands, List.mem_cons, List.not_mem_nil, h₁, h₂, h₃, h₄, h₅, h₆, h₇, h₈, h₉, h₁₀,
      h₁₁, h₁₂, or_self, if_false]
  · rw [requestHandler, if_neg h₁, if_neg h₂, if_neg h₃, if_neg h₄, if_neg h₅, if_neg h₆,
      if_neg h₇, if_neg h₈, if_neg h₉, if_neg h₁₀, if_neg h₁₁, if_neg h₁₂]

/-- What the server does for a request it has received as this text. -/
def exec (x : Text) : Option Action := ((requestJob x).alone delim).bind Call.action

section
variable {x name : Text}

theorem alone_of_none (h : token delim 0 x = none) : (requestJob x).alone delim = none := by
  have hs : (strtok delim x).1 = none := h
  rw [Job.alone]
  simp only [requestJob, hs]
  rfl

theorem alone_of_name (h : token delim 0 x = some name) : (requestJob x).alone delim =
    (requestHandler x (some name)).alone delim (strtok delim x).2 := by
  have hs : (strtok delim x).1 = some name := h
  rw [Job.alone]
  simp only [requestJob, hs]

theorem exec_of_none (h : token delim 0 x = none) : exec x = none := by
  rw [exec, alone_of_none h]
  rfl

theorem exec_of_name (h : token delim 0 x = some name) : exec x =
    ((requestHandler x (some name)).alone delim (strtok delim x).2).bind Call.action := by
  rw [exec, alone_of_name h]

theorem exec_one {call : Text → Call} (h : token delim 0 x = some name)
    (hs : requestHandler x (some name) = withToken call)
    (ha : ∀ s, (call s).action = some (.remote (call s))) :
    exec x = (token delim 1 x).map fun a => .remote (call a) := by
  rw [exec_of_name h, hs, withToken, Prog.alone]
  change ((token delim 1 x).map call).bind Call.action = _
  cases token delim 1 x with
  | none => rfl
  | some a => exact ha a

theorem alone_withAtoi_token (k : Int → Prog (Option Call)) (s : Text) :
    (withAtoi k).alone delim s =
      (token delim 0 s).bind fun t => (k (atoi t)).alone delim (strtok delim s).2 := by
  rw [withAtoi, Prog.alone, token]
  cases (strtok delim s).1 with
  | none => rfl
  | some t => rfl

theorem exec_two {call : Text → Int → Call} (h : token delim 0 x = some name)
    (hs : requestHandler x (some name) = withTokenAtoi call)
    (ha : ∀ s v, (call s v).action = some (.remote (call s v))) :
    exec x = (token delim 2 x).bind fun b => (token delim 1 x).map fun a =>
      .remote (call a (atoi b)) := by
  rw [exec_of_name h, hs, withTokenAtoi, Prog.alone, alone_withAtoi_token]
  change ((token delim 2 x).bind fun b => (token delim 1 x).map fun a => call a (atoi b)).bind
    Call.action = _
  cases token delim 2 x with
  | none => rfl
  | some b =>
    cases token delim 1 x with
    | none => rfl
    | some a => exact ha a (atoi b)

theorem exec_three {call : Text → Int → Int → Call} (h : token delim 0 x = some name)
    (hs : requestHandler x (some name) = withTokenAtoiAtoi call) :
    exec x = (token delim 2 x).bind fun b => (token delim 3 x).bind fun c =>
      (token delim 1 x).bind fun a => (call a (atoi b) (atoi c)).action := by
  rw [exec_of_name h, hs, withTokenAtoiAtoi, Prog.alone, alone_withAtoi_token]
  simp only [alone_withAtoi_token]
  change ((token delim 2 x).bind fun b => (token delim 3 x).bind fun c =>
    (token delim 1 x).map fun a => call a (atoi b) (atoi c)).bind Call.action = _
  cases token delim 2 x with
  | none => rfl
  | some b =>
    cases token delim 3 x with
    | none => rfl
    | some c =>
      cases token delim 1 x with
      | none => rfl
      | some a => rfl

theorem exec_write (h : token delim 0 x = some "write".toList) :
    exec x = (token delim 2 x).bind fun b => (token delim 3 x).bind fun c =>
      (token delim 1 x).bind fun a => (payload x).map fun d =>
        .pwrite (atoi a) ((d ++ [nul]).take (sizeT (atoi b))) (sizeT (atoi b)) (atoi c) := by
  rw [exec_three h (requestHandler_write x)]
  simp only [Call.action, remoteWrite_eq, Option.map_map]
  rfl

theorem exec_unknown (h : token delim 0 x = some name)
    (hs : requestHandler x (some name) = .ret none) : exec x = none := by
  rw [exec_of_name h, hs]
  rfl

theorem token_lt (h : token delim n x = some w) (hi : i < n) : ∃ v, token delim i x = some v := by
  induction n generalizing w with
  | zero => exact absurd hi (Nat.not_lt_zero i)
  | succ n ih =>
    obtain ⟨v, hv⟩ := Option.isSome_iff_exists.mp
      (token_isSome_of_succ (Option.isSome_iff_exists.mpr ⟨w, h⟩))
    rcases Nat.lt_succ_iff_lt_or_eq.mp hi with hi | rfl
    · exact ih hv hi
    · exact ⟨v, hv⟩

/-- The server executes something exactly for a complete request. -/
theorem exec_isSome_iff : (exec x).isSome = true ↔ ∃ m num, Complete x m num := by
  cases h : token delim 0 x with
  | none =>
    rw [exec_of_none h]
    constructor
    · rintro ⟨⟩
    · rintro ⟨m, num, name, hn, -⟩
      rw [h] at hn
      cases hn
  | some name =>
    have hc : (∃ m num, Complete x m num) ↔ ∃ m num, operands name = some (m, num) ∧
        (token delim m x).isSome = true ∧ (name = "write".toList → (payload x).isSome = true) := by
      simp only [Complete, h, Option.some.injEq, exists_eq_left']
    rw [hc]
    cases switch name with
    | unknown ho hs =>
      rw [exec_unknown h (hs x), ho]
      constructor
      · rintro ⟨⟩
      · rintro ⟨m, num, he, -⟩
        cases he
    | one call ho hs hw ha hc =>
      rw [exec_one h (hs x) ha, ho, Option.isSome_map]
      constructor
      · exact fun h1 => ⟨1, false, rfl, h1, fun he => absurd he hw⟩
      · rintro ⟨m, num, he, h1, -⟩
        cases he
        exact h1
    | two call ho hs hw ha hc =>
      rw [exec_two h (hs x) ha, ho]
      cases h2 : token delim 2 x with
      | none =>
        constructor
        · rintro ⟨⟩
        · rintro ⟨m, num, he, h, -⟩
          cases he
          rw [h2] at h
          cases h
      | some b =>
        obtain ⟨a, h1⟩ := token_lt h2 (by decide : 1 < 2)
        rw [h1]
        exact ⟨fun _ => ⟨2, true, rfl, by rw [h2]; rfl, fun he => absurd he hw⟩, fun _ => rfl⟩
    | three call ho hs hw ha hc =>
      rw [exec_three h (hs x), ho]
      cases h3 : token delim 3 x with
      | none =>
        constructor
        · cases token delim 2 x <;> simp
        · rintro ⟨m, num, he, h, -⟩
          cases he
          rw [h3] at h
          cases h
      | some c =>
        obtain ⟨b, h2⟩ := token_lt h3 (by decide : 2 < 3)
        obtain ⟨a, h1⟩ := token_lt h3 (by decide : 1 < 3)
        simp only [h2, h1, Option.bind_some, ha]
        exact ⟨fun _ => ⟨3, true, rfl, by rw [h3]; rfl, fun he => absurd he hw⟩, fun _ => rfl⟩
    | write hw =>
      subst hw
      rw [exec_write h]
      cases h3 : token delim 3 x with
      | none =>
        constructor
        · cases token delim 2 x <;> simp
        · rintro ⟨m, num, he, h, -⟩
          cases he
          rw [h3] at h
          cases h
      | some c =>
        obtain ⟨b, h2⟩ := token_lt h3 (by decide : 2 < 3)
        obtain ⟨a, h1⟩ := token_lt h3 (by decide : 1 < 3)
        simp only [h2, h1, Option.bind_some, Option.isSome_map]
        constructor
        · exact fun hd => ⟨3, true, rfl, by rw [h3]; rfl, fun _ => hd⟩
        · rintro ⟨m, num, -, -, hd⟩
          exact hd trivial

theorem operands_pos (h : operands name = some (m, num)) : 0 < m := by
  unfold operands at h
  split at h
  · cases h
    decide
  split at h
  · cases h
    decide
  split at h
  · cases h
    decide
  · cases h

end

section
variable {p t : Text}

theorem Complete.append (h : Complete p m num) (t : Text) :
    Complete (p ++ t) m num ∧ token delim 0 p = token delim 0 (p ++ t) := by
  obtain ⟨name, hname, ho, hm, hd⟩ := h
  rcases token_append (δ := delim) m p t with ⟨hn, -⟩ | ⟨w, u, hw, hwu, -, hb⟩
  · rw [hn] at hm
    cases hm
  · have h0 := hb 0 (operands_pos ho)
    refine ⟨⟨name, h0 ▸ hname, ho, by rw [hwu]; rfl, fun he => ?_⟩, h0⟩
    rcases payload_append p t with ⟨hp, -⟩ | ⟨q, -, -, hq⟩
    · have := hd he
      rw [hp] at this
      cases this
    · rw [hq]
      rfl

theorem Complete.unique (h : Complete p m num) (h' : Complete p m' num') : m = m' ∧ num = num' := by
  obtain ⟨name, hn, ho, -⟩ := h
  obtain ⟨name', hn', ho', -⟩ := h'
  obtain rfl := Option.some.inj (hn.symm.trans hn')
  exact Prod.mk.inj (Option.some.inj (ho.symm.trans ho'))

/-- Of an incomplete request no part is executed either. -/
theorem exec_append_of_not (h : ¬ ∃ m num, Complete (p ++ t) m num) :
    exec p = exec (p ++ t) := by
  have hnone : ∀ {x}, (¬ ∃ m num, Complete x m num) → exec x = none := fun hx =>
    Option.not_isSome_iff_eq_none.mp fun he => hx (exec_isSome_iff.mp he)
  have hp : ¬ ∃ m num, Complete p m num := by
    rintro ⟨m, num, hp⟩
    exact h ⟨m, num, (hp.append t).1⟩
  rw [hnone h, hnone hp]

/-- A part that ends before the last operand is not executed. -/
theorem exec_ne_of_missing (h : Complete (p ++ t) m num) (hm : token delim m p = none) :
    exec p ≠ exec (p ++ t) := by
  intro he
  obtain ⟨m', num', hp⟩ := exec_isSome_iff.mp (he ▸ exec_isSome_iff.mpr ⟨m, num, h⟩)
  obtain ⟨rfl, -⟩ := (hp.append t).1.unique h
  obtain ⟨_, _, _, hs, _⟩ := hp
  rw [hm] at hs
  cases hs

/-- What `Enough` says of the last operand, in terms of what is cut off it. -/
def Reads (num : Bool) (w u : Text) : Prop := u = [] ∨ num = true ∧ atoi w = atoi (w ++ u)

theorem exec_append_iff_reads {name w u : Text} (hname : token delim 0 (p ++ t) = some name)
    (hc : Complete (p ++ t) m num) (hne : name ≠ "write".toList)
    (hw : token delim m p = some w) (hwu : token delim m (p ++ t) = some (w ++ u))
    (hb : ∀ i < m, token delim i p = token delim i (p ++ t)) :
    exec p = exec (p ++ t) ↔ Reads num w u := by
  obtain ⟨name', hn', ho, -, -⟩ := hc
  obtain rfl := Option.some.inj (hname.symm.trans hn')
  have hpname := (hb 0 (operands_pos ho)).trans hname
  cases switch name with
  | unknown h hs =>
    rw [h] at ho
    cases ho
  | write h => exact absurd h hne
  | one call h hs hw' ha hcall =>
    obtain ⟨rfl, rfl⟩ := Prod.mk.inj (Option.some.inj (h.symm.trans ho))
    rw [exec_one hpname (hs p) ha, exec_one hname (hs _) ha, hw, hwu]
    simp only [Option.map_some, Option.some.injEq, Action.remote.injEq, Reads, Bool.false_eq_true,
      false_and, or_false]
    constructor
    · intro he
      exact List.self_eq_append_right.mp (hcall _ _ he)
    · rintro rfl
      rw [List.append_nil]
  | two call h hs hw' ha hcall =>
    obtain ⟨rfl, rfl⟩ := Prod.mk.inj (Option.some.inj (h.symm.trans ho))
    obtain ⟨a, h1⟩ := token_lt hwu (by decide : 1 < 2)
    rw [exec_two hpname (hs p) ha, exec_two hname (hs _) ha, hw, hwu, hb 1 (by decide), h1]
    simp only [Option.bind_some, Option.map_some, Option.some.injEq, Action.remote.injEq, Reads,
      true_and]
    constructor
    · exact fun he => .inr (hcall a w _ he)
    · rintro (rfl | he)
      · rw [List.append_nil]
      · rw [he]
  | three call h hs hw' ha hcall =>
    obtain ⟨rfl, rfl⟩ := Prod.mk.inj (Option.some.inj (h.symm.trans ho))
    obtain ⟨a, h1⟩ := token_lt hwu (by decide : 1 < 3)
    obtain ⟨b, h2⟩ := token_lt hwu (by decide : 2 < 3)
    rw [exec_three hpname (hs p), exec_three hname (hs _), hw, hwu, hb 1 (by decide),
      hb 2 (by decide), h1, h2]
    simp only [Option.bind_some, ha, Option.some.injEq, Action.remote.injEq, Reads, true_and]
    constructor
    · exact fun he => .inr (hcall a _ _ _ he)
    · rintro (rfl | he)
      · rw [List.append_nil]
      · rw [he]

theorem exec_append_iff_write {a b d w u : Text} (hn : nul ∉ t)
    (hname : token delim 0 (p ++ t) = some "write".toList)
    (h1 : token delim 1 (p ++ t) = some a) (h2 : token delim 2 (p ++ t) = some b)
    (hw : token delim 3 p = some w) (hwu : token delim 3 (p ++ t) = some (w ++ u))
    (hb : ∀ i < 3, token delim i p = token delim i (p ++ t)) (hd : payload (p ++ t) = some d) :
    exec p = exec (p ++ t) ↔ Reads true w u ∧
      ((p ++ t).length - d.length + sizeT (atoi b) ≤ p.length ∨ (p ++ t).length ≤ p.length) := by
  rw [exec_write ((hb 0 (by decide)).trans hname), exec_write hname, hw, hwu, hb 1 (by decide),
    hb 2 (by decide), h1, h2, hd]
  have hreads : atoi w = atoi (w ++ u) ↔ Reads true w u := by
    constructor
    · exact fun he => .inr ⟨rfl, he⟩
    · rintro (rfl | he)
      · rw [List.append_nil]
      · exact he.2
  rw [← hreads]
  rcases payload_append p t with ⟨hp, hlast⟩ | ⟨q, hq, hp, hpt⟩
  · have := hlast d hd
    simp only [hp, Option.bind_some, Option.map_none, Option.map_some, reduceCtorEq, false_iff,
      List.length_append]
    omega
  · obtain rfl := Option.some.inj (hd.symm.trans hpt)
    have ht : t = [] ↔ t.length = 0 := List.length_eq_zero_iff.symm
    simp only [hp, Option.bind_some, Option.map_some, Option.some.injEq, Action.pwrite.injEq,
      true_and, take_terminated_iff hn, ht, List.length_append]
    rw [and_comm]
    exact and_congr_right fun _ => by omega

/-- The server executes the same for the first part of a request exactly if it is enough. -/
theorem exec_append_iff (hn : nul ∉ t) : exec p = exec (p ++ t) ↔ Enough (p ++ t) p.length := by
  by_cases hc : ∃ m num, Complete (p ++ t) m num
  · obtain ⟨m, num, hc⟩ := hc
    have hEnough : Enough (p ++ t) p.length ↔
        (tokenEnd delim m (p ++ t) ≤ p.length ∨ num = true ∧
          (token delim m p).map atoi = (token delim m (p ++ t)).map atoi) ∧
        (token delim 0 (p ++ t) = some "write".toList → ∀ size d,
          token delim 2 (p ++ t) = some size → payload (p ++ t) = some d →
          (p ++ t).length - d.length + sizeT (atoi size) ≤ p.length ∨
            (p ++ t).length ≤ p.length) := by
      unfold Enough
      rw [List.take_left]
      constructor
      · exact fun h => h m num hc
      · intro h m' num' hc'
        obtain ⟨rfl, rfl⟩ := hc.unique hc'
        exact h
    rw [hEnough]
    obtain ⟨name, hname, ho, hm, hd⟩ := id hc
    rcases token_append (δ := delim) m p t with ⟨hnone, hend⟩ | ⟨w, u, hw, hwu, hu, hb⟩
    · obtain ⟨z, hz⟩ := Option.isSome_iff_exists.mp hm
      have := hend z hz
      rw [hnone, hz]
      simp only [exec_ne_of_missing hc hnone, Option.map_none, Option.map_some, reduceCtorEq,
        and_false, or_false, false_iff]
      omega
    · rw [hw, hwu, ← hu]
      simp only [Option.map_some, Option.some.injEq]
      by_cases hwrite : name = "write".toList
      · subst hwrite
        have h3 : operands "write".toList = some (3, true) := by decide
        obtain ⟨rfl, rfl⟩ := Prod.mk.inj (Option.some.inj (h3.symm.trans ho))
        obtain ⟨a, h1⟩ := token_lt hwu (by decide : 1 < 3)
        obtain ⟨b, h2⟩ := token_lt hwu (by decide : 2 < 3)
        obtain ⟨d, hd⟩ := Option.isSome_iff_exists.mp (hd rfl)
        rw [exec_append_iff_write hn hname h1 h2 hw hwu hb hd]
        refine and_congr_right fun _ =>
          ⟨fun h _ size d' hsize hd' => ?_, fun h => h hname b d h2 hd⟩
        obtain rfl := Option.some.inj (h2.symm.trans hsize)
        obtain rfl := Option.some.inj (hd.symm.trans hd')
        exact h
      · rw [exec_append_iff_reads hname hc hwrite hw hwu hb]
        refine ⟨fun h => ⟨h, fun he => ?_⟩, fun h => h.1⟩
        exact absurd (Option.some.inj (hname.symm.trans he)) hwrite
  · have hE : Enough (p ++ t) p.length := fun m num h => absurd ⟨m, num, h⟩ hc
    exact iff_of_true (exec_append_of_not hc) hE

end

theorem executed_eq (pieces : List Text) : executed pieces = exec (recvText 4096 pieces) := rfl

theorem takeWhile_take (f : Char → Bool) (k : Nat) (s : List Char) :
    (s.take k).takeWhile f = (s.takeWhile f).take k := by
  induction s generalizing k with
  | nil => simp
  | cons c s ih =>
    cases k with
    | zero => simp
    | succ k =>
      rw [List.take_succ_cons]
      cases hc : f c with
      | true => rw [List.takeWhile_cons_of_pos hc, List.takeWhile_cons_of_pos hc, ih,
          List.take_succ_cons]
      | false =>
        have hn : ¬ f c = true := by simp [hc]
        rw [List.takeWhile_cons_of_neg hn, List.takeWhile_cons_of_neg hn, List.take_nil]

theorem cstr_take_iff (resp : List Char) (k : Nat) :
    cstr (resp.take k) = cstr resp ↔ (cstr resp).length ≤ k := by
  rw [cstr, takeWhile_take, ← cstr]
  exact List.take_eq_self_iff _

/-- A `recv` gets the first piece. -/
theorem recvText_pieces {pieces : List Text} {r : List Char} (hp : pieces.flatten = r)
    (hl : r.length ≤ 4096) :
    ∃ t, r = pieces.headD [] ++ t ∧ recvText 4096 pieces = cstr (pieces.headD []) := by
  cases pieces with
  | nil => exact ⟨r, rfl, rfl⟩
  | cons q qs =>
    rw [List.flatten_cons] at hp
    refine ⟨qs.flatten, hp.symm, ?_⟩
    have hq := congrArg List.length hp
    rw [List.length_append] at hq
    rw [recvText, List.take_of_length_le (by omega)]
    rfl

/-- However a request and its response are cut into pieces, the server executes the same and the
client is given the same text exactly if the first piece of the request is enough and the first
piece of the response holds its whole text. -/
theorem pieces_iff (r : Text) (resp : List Char) (pieces pieces' : List Text) (hn : nul ∉ r)
    (hl : r.length ≤ 4095) (hresp : resp.length = 4096) (hp : pieces.flatten = r)
    (hp' : pieces'.flatten = resp) :
    (executed pieces = executed [r] ∧ recvText 4096 pieces' = recvText 4096 [resp]) ↔
      (Enough r (pieces.headD []).length ∧ (cstr resp).length ≤ (pieces'.headD []).length) := by
  obtain ⟨t, hr, hrecv⟩ := recvText_pieces hp (by omega)
  obtain ⟨t', hr', hrecv'⟩ := recvText_pieces hp' (Nat.le_of_eq hresp)
  generalize pieces.headD [] = q at hr hrecv ⊢
  generalize pieces'.headD [] = q' at hr' hrecv' ⊢
  have hwhole : recvText 4096 [resp] = cstr resp := by
    rw [recvText, List.take_of_length_le (Nat.le_of_eq hresp)]
  have hqt : nul ∉ q ∧ nul ∉ t := by
    rw [hr] at hn
    exact ⟨fun h => hn (List.mem_append_left t h), fun h => hn (List.mem_append_right q h)⟩
  rw [executed_eq, executed_eq, recvText_whole (by omega) hn, hrecv, cstr_eq_self hqt.1, hrecv',
    hwhole, ← cstr_take_iff, hr, exec_append_iff hqt.2, hr', List.take_left]

theorem pieces_iff_two :
    (executed ["truncate, /a, 1".toList, "23".toList] = executed ["truncate, /a, 123".toList] ∧
      recvText 4096 [List.replicate 4096 nul] = recvText 4096 [List.replicate 4096 nul]) ↔
      (Enough "truncate, /a, 123".toList "truncate, /a, 1".toList.length ∧
        (cstr (List.replicate 4096 nul)).length ≤ (List.replicate 4096 nul).length) :=
  pieces_iff "truncate, /a, 123".toList (List.replicate 4096 nul)
    ["truncate, /a, 1".toList, "23".toList] [List.replicate 4096 nul] (by decide) (by decide)
    List.length_replicate (by decide) (List.append_nil _)

/-- A cut inside the size of a truncate truncates to another size. -/
theorem pieces_not_same : ¬ ∀ (r : Text) (resp : List Char) (pieces pieces' : List Text),
    nul ∉ r → r ≠ [] → r.length ≤ 4095 → resp.length = 4096 → pieces.flatten = r →
    (∀ q ∈ pieces, q ≠ []) → pieces'.flatten = resp → (∀ q ∈ pieces', q ≠ []) →
      executed pieces = executed [r] ∧ recvText 4096 pieces' = recvText 4096 [resp] := by
  intro h
  have he := (h "truncate, /a, 123".toList (List.replicate 4096 nul)
    ["truncate, /a, 1".toList, "23".toList] [List.replicate 4096 nul] (by decide) (by decide)
    (by decide) List.length_replicate (by decide) (by decide) (List.append_nil _)
    (fun q hq => List.mem_singleton.mp hq ▸ List.cons_ne_nil _ _)).1
  revert he
  decide

end NoblesseOblige.Snfs
