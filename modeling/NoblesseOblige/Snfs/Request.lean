import NoblesseOblige.Snfs.Pieces

namespace NoblesseOblige.Snfs
open CString
set_option autoImplicit true

/-- The operation of a call, as a request names it. -/
def Call.name : Call → Text
  | .readdir _ => "readdir".toList
  | .getattr _ => "getattr".toList
  | .opendir _ => "opendir".toList
  | .releasedir _ => "releasedir".toList
  | .mkdir _ _ => "mkdir".toList
  | .read _ _ _ => "read".toList
  | .open _ _ => "open".toList
  | .release _ => "release".toList
  | .write _ _ _ _ => "write".toList
  | .truncate _ _ => "truncate".toList
  | .create _ _ => "create".toList
  | .unlink _ => "unlink".toList

/-- The path or pointer of a call, which a request gives first. -/
def Call.operand : Call → Text
  | .readdir path | .getattr path | .opendir path | .mkdir path _ | .open path _
  | .truncate path _ | .create path _ | .unlink path => path
  | .releasedir pointer | .read pointer _ _ | .release pointer | .write pointer _ _ _ => pointer

section
variable {x name : Text} {c : Call}

theorem alone_withToken_eq (h : (withToken call).alone delim (strtok delim x).2 = some c) :
    ∃ t, token delim 1 x = some t ∧ c = call t := by
  obtain ⟨t, ht, rfl⟩ := Option.map_eq_some_iff.mp h
  exact ⟨t, ht, rfl⟩

theorem alone_withTokenAtoi_eq
    (h : (withTokenAtoi call).alone delim (strtok delim x).2 = some c) :
    ∃ t u, token delim 1 x = some t ∧ token delim 2 x = some u ∧ c = call t (atoi u) := by
  rw [withTokenAtoi, Prog.alone, alone_withAtoi_token] at h
  obtain ⟨u, hu, h⟩ := Option.bind_eq_some_iff.mp h
  obtain ⟨t, ht, rfl⟩ := Option.map_eq_some_iff.mp h
  exact ⟨t, u, ht, hu, rfl⟩

theorem alone_withTokenAtoiAtoi_eq
    (h : (withTokenAtoiAtoi call).alone delim (strtok delim x).2 = some c) :
    ∃ t u v, token delim 1 x = some t ∧ token delim 2 x = some u ∧ token delim 3 x = some v ∧
      c = call t (atoi u) (atoi v) := by
  rw [withTokenAtoiAtoi, Prog.alone, alone_withAtoi_token] at h
  obtain ⟨u, hu, h⟩ := Option.bind_eq_some_iff.mp h
  rw [alone_withAtoi_token] at h
  obtain ⟨v, hv, h⟩ := Option.bind_eq_some_iff.mp h
  obtain ⟨t, ht, rfl⟩ := Option.map_eq_some_iff.mp h
  exact ⟨t, u, v, ht, hu, hv, rfl⟩

/-- A call is the one that its request names, on the operand that comes first. -/
theorem alone_spec (h : (requestJob x).alone delim = some c) :
    token delim 0 x = some c.name ∧ token delim 1 x = some c.operand := by
  cases hn : token delim 0 x with
  | none =>
    rw [alone_of_none hn] at h
    cases h
  | some name =>
    rw [alone_of_name hn] at h
    by_cases h₁ : name = "readdir".toList
    · rw [h₁, requestHandler_readdir] at h
      obtain ⟨t, ht, rfl⟩ := alone_withToken_eq h
      exact ⟨congrArg some h₁, ht⟩
    by_cases h₂ : name = "getattr".toList
    · rw [h₂, requestHandler_getattr] at h
      obtain ⟨t, ht, rfl⟩ := alone_withToken_eq h
      exact ⟨congrArg some h₂, ht⟩
    by_cases h₃ : name = "opendir".toList
    · rw [h₃, requestHandler_opendir] at h
      obtain ⟨t, ht, rfl⟩ := alone_withToken_eq h
      exact ⟨congrArg some h₃, ht⟩
    by_cases h₄ : name = "releasedir".toList
    · rw [h₄, requestHandler_releasedir] at h
      obtain ⟨t, ht, rfl⟩ := alone_withToken_eq h
      exact ⟨congrArg some h₄, ht⟩
    by_cases h₅ : name = "mkdir".toList
    · rw [h₅, requestHandler_mkdir] at h
      obtain ⟨t, u, ht, -, rfl⟩ := alone_withTokenAtoi_eq h
      exact ⟨congrArg some h₅, ht⟩
    by_cases h₆ : name = "read".toList
    · rw [h₆, requestHandler_read] at h
      obtain ⟨t, u, v, ht, -, -, rfl⟩ := alone_withTokenAtoiAtoi_eq h
      exact ⟨congrArg some h₆, ht⟩
    by_cases h₇ : name = "open".toList
    · rw [h₇, requestHandler_open] at h
      obtain ⟨t, u, ht, -, rfl⟩ := alone_withTokenAtoi_eq h
      exact ⟨congrArg some h₇, ht⟩
    by_cases h₈ : name = "release".toList
    · rw [h₈, requestHandler_release] at h
      obtain ⟨t, ht, rfl⟩ := alone_withToken_eq h
      exact ⟨congrArg some h₈, ht⟩
    by_cases h₉ : name = "write".toList
    · rw [h₉, requestHandler_write] at h
      obtain ⟨t, u, v, ht, -, -, rfl⟩ := alone_withTokenAtoiAtoi_eq h
      exact ⟨congrArg some h₉, ht⟩
    by_cases h₁₀ : name = "truncate".toList
    · rw [h₁₀, requestHandler_truncate] at h
      obtain ⟨t, u, ht, -, rfl⟩ := alone_withTokenAtoi_eq h
      exact ⟨congrArg some h₁₀, ht⟩
    by_cases h₁₁ : name = "create".toList
    · rw [h₁₁, requestHandler_create] at h
      obtain ⟨t, u, ht, -, rfl⟩ := alone_withTokenAtoi_eq h
      exact ⟨congrArg some h₁₁, ht⟩
    by_cases h₁₂ : name = "unlink".toList
    · rw [h₁₂, requestHandler_unlink] at h
      obtain ⟨t, ht, rfl⟩ := alone_withToken_eq h
      exact ⟨congrArg some h₁₂, ht⟩
    rw [requestHandler, if_neg h₁, if_neg h₂, if_neg h₃, if_neg h₄, if_neg h₅, if_neg h₆,
      if_neg h₇, if_neg h₈, if_neg h₉, if_neg h₁₀, if_neg h₁₁, if_neg h₁₂] at h
    cases h

end

end NoblesseOblige.Snfs
