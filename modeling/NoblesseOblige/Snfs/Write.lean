import NoblesseOblige.Snfs.Codec

namespace NoblesseOblige.Snfs
open CString
set_option autoImplicit true

def Call.pwrite : Call → Option Pwrite
  | .write pointer size offset buffer => remoteWrite pointer size offset buffer
  | _ => none

theorem afterComma_sep (h : ',' ∉ w) (s : Text) :
    afterComma (w ++ (", ".toList ++ s)) = some (' ' :: s) := by
  have hs : strchr (w ++ ',' :: ' ' :: s) ',' = some (',' :: ' ' :: s) := strchr_append h
  exact congrArg (Option.map List.tail) hs

theorem afterComma_space (s : Text) : afterComma (' ' :: s) = afterComma s := rfl

/-- Shifting a text one place to the right gives the text again only if all its characters are the
one put in front. -/
theorem take_cons_eq_iff {a : Char} {d : Text} :
    (a :: d).take d.length = d ↔ ∀ c ∈ d, c = a := by
  induction d generalizing a with
  | nil => simp
  | cons b d ih =>
    rw [List.length_cons, List.take_succ_cons, List.cons_eq_cons, ih, List.forall_mem_cons]
    constructor
    · rintro ⟨rfl, h⟩
      exact ⟨rfl, h⟩
    · rintro ⟨rfl, h⟩
      exact ⟨rfl, h⟩

section
variable {fh : UInt64} {d : Text} {offset : Int}

theorem Callback.nul_notMem_write (hd : nul ∉ d) :
    nul ∉ (Callback.write fh d size offset).request := by
  refine notMem_append (notMem_append (by decide) ?_) hd
  refine notMem_append (notMem_append (notMem_append (notMem_append ?_ ?_) ?_) ?_) (by decide)
  · exact notMem_append (nul_notMem_decNat _) (by decide)
  · exact nul_notMem_dec _
  · decide
  · exact nul_notMem_dec _

theorem append_fields (n s a b c d : Text) : n ++ s ++ (a ++ s ++ b ++ s ++ c ++ s) ++ d =
    n ++ (s ++ (a ++ (s ++ (b ++ (s ++ (c ++ (s ++ d))))))) := by
  simp only [List.append_assoc]

/-- The request of a write, field by field. -/
theorem Callback.write_request : (Callback.write fh d size offset).request =
    "write".toList ++ (", ".toList ++ (decNat fh.toNat ++ (", ".toList ++ (dec (toInt size) ++
      (", ".toList ++ (dec (toInt offset) ++ (", ".toList ++ d))))))) :=
  append_fields "write".toList ", ".toList (decNat fh.toNat) (dec (toInt size))
    (dec (toInt offset)) d

theorem Callback.length_le_request (fh : UInt64) (d : Text) (size : Nat) (offset : Int) :
    d.length ≤ (Callback.write fh d size offset).request.length :=
  (List.suffix_append _ d).length_le

theorem sizeT_natCast {n : Nat} (h : n < 2 ^ 31) : sizeT n = n := by
  unfold sizeT
  omega

/-- The server decodes the fields of a write request. -/
theorem served_write (hd : nul ∉ d)
    (hl : (Callback.write fh d size offset).request.length < 4096) :
    served [(Callback.write fh d size offset).request] =
      some (.write (decNat fh.toNat) (sizeT (atoi (dec (toInt size)))) (atoi (dec (toInt offset)))
        (Callback.write fh d size offset).request) := by
  rw [served_of_name "write".toList _ Callback.write_request (requestHandler_write _)
    (by decide) hl (Callback.nul_notMem_write hd)]
  exact alone_withTokenAtoiAtoi _ (plain_decNat _) (plain_dec _) ((plain_dec _).strtok_sep d)

/-- What follows the fourth comma is the space before the payload and the payload. -/
theorem remoteWrite_request : remoteWrite pointer n m (Callback.write fh d size offset).request =
    some ⟨atoi pointer, ' ' :: d, n, m⟩ := by
  rw [remoteWrite, Callback.write_request]
  rw [afterComma_sep (by decide : ',' ∉ "write".toList)]
  rw [Option.bind_eq_bind, Option.bind_some, afterComma_space,
    afterComma_sep (plain_decNat _).comma_notMem]
  rw [Option.bind_some, afterComma_space, afterComma_sep (plain_dec _).comma_notMem]
  rw [Option.bind_some, afterComma_space, afterComma_sep (plain_dec _).comma_notMem]
  rfl

theorem atoi_decNat_iff (n : Nat) : atoi (decNat n) = n ↔ n < 2 ^ 31 := by
  constructor
  · intro h
    have := (toInt_bounds (strtol (decNat n))).2
    rw [atoi] at h
    omega
  · exact atoi_decNat

/-- The server writes what it was sent exactly if the handle is a descriptor and the payload is
blank: it starts writing at the space before the payload and stops one character short. -/
theorem write_served_iff (fh : UInt64) (d : Text) (offset : Int) (hd : nul ∉ d) (h0 : 0 ≤ offset)
    (h31 : offset < 2 ^ 31)
    (hl : (Callback.write fh d d.length offset).request.length < 4096) :
    (∃ w, (served [(Callback.write fh d d.length offset).request]).bind Call.pwrite = some w ∧
      w.fd = fh.toNat ∧ w.data = d ∧ w.offset = offset) ↔
      fh.toNat < 2 ^ 31 ∧ ∀ c ∈ d, c = ' ' := by
  have hsize : d.length < 2 ^ 31 := by
    have := Callback.length_le_request fh d d.length offset
    omega
  have hs : (d.length : Int) < 2 ^ 31 := by exact_mod_cast hsize
  rw [served_write hd hl, toInt_of_nonneg (Int.natCast_nonneg _) hs, toInt_of_nonneg h0 h31,
    atoi_dec (by omega) hs, atoi_dec (by omega) h31, sizeT_natCast hsize, Option.bind_some,
    Call.pwrite, remoteWrite_request]
  have hdata : (' ' :: d ++ [nul]).take d.length = (' ' :: d).take d.length :=
    List.take_append_of_le_length (by rw [List.length_cons]; omega)
  rw [← atoi_decNat_iff, ← take_cons_eq_iff, ← hdata]
  constructor
  · rintro ⟨w, hw, hfd, hb, -⟩
    cases hw
    exact ⟨hfd, hb⟩
  · rintro ⟨hfd, hb⟩
    exact ⟨_, rfl, hfd, hb, rfl⟩

end

theorem write_served_iff_blank :
    (∃ w, (served [(Callback.write 3 "  ".toList 2 7).request]).bind Call.pwrite = some w ∧
      w.fd = (3 : UInt64).toNat ∧ w.data = "  ".toList ∧ w.offset = 7) ↔
      (3 : UInt64).toNat < 2 ^ 31 ∧ ∀ c ∈ "  ".toList, c = ' ' :=
  write_served_iff 3 "  ".toList 7 (by decide) (by decide) (by decide) (by decide)

/-- Writing "hello" writes " hell". -/
theorem write_not_served : ¬ ∀ (fh : UInt64) (d : Text) (offset : Int), nul ∉ d → 0 ≤ offset →
    offset < 2 ^ 31 → (Callback.write fh d d.length offset).request.length < 4096 →
      ∃ w, (served [(Callback.write fh d d.length offset).request]).bind Call.pwrite = some w ∧
        w.fd = fh.toNat ∧ w.data = d ∧ w.offset = offset := by
  intro h
  obtain ⟨w, hw, -, hb, -⟩ := h 3 "hello".toList 7 (by decide) (by decide) (by decide) (by decide)
  have hs : (served [(Callback.write 3 "hello".toList 5 7).request]).bind Call.pwrite =
      some ⟨3, " hello".toList, 5, 7⟩ := by decide
  obtain rfl := Option.some.inj (hs.symm.trans hw)
  revert hb
  decide

end NoblesseOblige.Snfs
