import NoblesseOblige.Snfs.Transfer

namespace NoblesseOblige.Snfs
open CString
set_option autoImplicit true

/-- A number that a cast to `int` leaves as it is. -/
def FitsInt (v : Int) : Prop := -2 ^ 31 ≤ v ∧ v < 2 ^ 31

/-- A 64-bit number that comes back when its lower half is cast to `int` and extended again. -/
def SignExtended (n : Nat) : Prop := n < 2 ^ 31 ∨ 2 ^ 64 - 2 ^ 31 ≤ n ∧ n < 2 ^ 64

instance (v : Int) : Decidable (FitsInt v) := inferInstanceAs (Decidable (_ ∧ _))

instance (n : Nat) : Decidable (SignExtended n) := inferInstanceAs (Decidable (_ ∨ _))

theorem toInt_eq_iff (v : Int) : toInt v = v ↔ FitsInt v := by
  constructor
  · intro h
    have hb := toInt_bounds v
    rw [h] at hb
    exact hb
  · intro h
    exact toInt_eq_self h.1 h.2

theorem sizeT_toInt_eq_iff (n : Nat) : sizeT (toInt n) = n ↔ SignExtended n := by
  rw [sizeT, toInt, SignExtended, Int.bmod_def]
  omega

theorem atoi_dec_toInt (v : Int) : atoi (dec (toInt v)) = toInt v :=
  atoi_dec (toInt_bounds v).1 (toInt_bounds v).2

/-- Attributes that `SNFS_getattr` does not take for a failure and that the wire has room for. -/
structure Stat.Survives (st : Stat) : Prop where
  mode : st.mode ≠ 0
  uid : st.uid ≠ 0
  gid : st.gid ≠ 0
  ino : SignExtended st.ino
  dev : SignExtended st.dev
  nlink : SignExtended st.nlink
  atime : FitsInt st.atime
  ctime : FitsInt st.ctime
  mtime : FitsInt st.mtime
  size : FitsInt st.size

/-- Attributes after they were printed as `int`s and read back. -/
def Stat.narrowed (st : Stat) : Stat :=
  { st with
    ino := sizeT (toInt st.ino)
    dev := sizeT (toInt st.dev)
    atime := toInt st.atime
    ctime := toInt st.ctime
    mtime := toInt st.mtime
    nlink := sizeT (toInt st.nlink)
    size := toInt st.size }

theorem Stat.narrowed_mode (st : Stat) : st.narrowed.mode = st.mode := by rw [Stat.narrowed]

theorem Stat.narrowed_uid (st : Stat) : st.narrowed.uid = st.uid := by rw [Stat.narrowed]

theorem Stat.narrowed_gid (st : Stat) : st.narrowed.gid = st.gid := by rw [Stat.narrowed]

theorem statOf_ints_whole (st : Stat) : statOf st.ints = some st.narrowed := by
  simp only [Stat.ints, List.map_cons, List.map_nil, statOf, Stat.narrowed,
    modeT_toInt st.mode_lt, modeT_toInt st.uid_lt, modeT_toInt st.gid_lt]

theorem Stat.narrowed_eq_iff (st : Stat) : st.narrowed = st ↔
    SignExtended st.ino ∧ SignExtended st.dev ∧ FitsInt st.atime ∧ FitsInt st.ctime ∧
      FitsInt st.mtime ∧ SignExtended st.nlink ∧ FitsInt st.size := by
  rw [← sizeT_toInt_eq_iff, ← sizeT_toInt_eq_iff, ← sizeT_toInt_eq_iff, ← toInt_eq_iff,
    ← toInt_eq_iff, ← toInt_eq_iff, ← toInt_eq_iff]
  cases st with
  | mk mode ino dev uid gid atime ctime mtime nlink size =>
    simp only [Stat.narrowed, Stat.mk.injEq, true_and]

theorem Stat.ints_eq (st : Stat) : st.ints = st.ints.take 9 ++ [toInt st.size] := rfl

theorem commaSeparated_ints (st : Stat) :
    commaSeparated st.ints = fields (st.ints.take 9) ++ dec (toInt st.size) :=
  (congrArg commaSeparated st.ints_eq).trans (commaSeparated_concat _ _)

theorem commaSeparated_ints_length (st : Stat) : (commaSeparated st.ints).length ≤ 128 := by
  have hnine := fields_length fun v hv => st.ints_bounds v (List.mem_of_mem_take (i := 9) hv)
  have hd := dec_length (toInt_bounds st.size).1 (toInt_bounds st.size).2
  have hlen : (st.ints.take 9).length = 9 := rfl
  rw [commaSeparated_ints, List.length_append]
  omega

theorem getattrJob_whole (st : Stat) :
    (getattrJob (commaSeparated st.ints)).alone delim = .attributes (some st.narrowed) := by
  have hten : (st.ints.take 9).length + 1 = 10 := rfl
  have h := alone_statFields (fun v hv => st.ints_bounds v (List.mem_of_mem_take hv))
    (plain_dec (toInt st.size)) [] (congrArg (strtok delim) (commaSeparated_ints st))
  rw [List.nil_append, atoi_dec_toInt, ← st.ints_eq, statOf_ints_whole, hten] at h
  rw [Job.alone, getattrJob, h]

/-- What `SNFS_getattr` makes of a whole response. -/
theorem finish_getattr_whole (path : Text) (st : Stat) :
    (Callback.getattr path).finish (commaSeparated st.ints) = some
      { Return.of (if st.mode ≤ 0 ∨ st.uid ≤ 0 ∨ st.gid ≤ 0 then -ENOENT else 0) with
        stbuf := some st.narrowed } := by
  rw [Callback.finish, getattrJob_whole]
  simp only [Stat.narrowed_mode, Stat.narrowed_uid, Stat.narrowed_gid]

/-- The attributes of a file come through exactly if its mode and its owner are not zero and no
number is changed by the cast to `int`. -/
theorem getattr_survives_iff (os : Os) (path dir : Text) (st : Stat)
    (hc : handled (Callback.getattr path).request = .called (.getattr dir))
    (hst : os.lstat (os.fullPath dir) = some st) :
    (∃ ret, (Callback.getattr path).result os .whole = some ret ∧ ret.value = 0 ∧
      ret.stbuf = some st) ↔ st.Survives := by
  have hneg : ¬ (-ENOENT = 0) := by decide
  have hlen : (commaSeparated st.ints).length ≤ 4096 :=
    (commaSeparated_ints_length st).trans (by decide)
  rw [Callback.result_whole os hc, received_getattr, hst, Option.getD_some,
    List.take_of_length_le hlen, finish_getattr_whole]
  simp only [Option.some.injEq, exists_eq_left', Return.of, ite_eq_right_iff, hneg, imp_false,
    Stat.narrowed_eq_iff]
  constructor
  · rintro ⟨howner, hino, hdev, hatime, hctime, hmtime, hnlink, hsize⟩
    exact ⟨by omega, by omega, by omega, hino, hdev, hnlink, hatime, hctime, hmtime, hsize⟩
  · intro h
    obtain ⟨hmode, huid, hgid, hino, hdev, hnlink, hatime, hctime, hmtime, hsize⟩ := h
    exact ⟨by omega, hino, hdev, hatime, hctime, hmtime, hnlink, hsize⟩

/-- A system in which every path has these attributes. -/
def Os.having (st : Stat) : Os :=
  { Os.failing with
    lstat := fun _ => some st }

/-- A file of a user, of the given size. -/
def Stat.ofUser (size : Int) : Stat :=
  ⟨33188, 7, 2049, 1000, 1000, 1300000000, 1300000000, 1300000000, 1, size, by decide, by decide,
    by decide⟩

theorem getattr_survives_iff_small :
    (∃ ret, (Callback.getattr "/a".toList).result (.having (.ofUser 5)) .whole = some ret ∧
      ret.value = 0 ∧ ret.stbuf = some (.ofUser 5)) ↔ (Stat.ofUser 5).Survives :=
  getattr_survives_iff (.having (.ofUser 5)) "/a".toList "/a".toList (.ofUser 5) rfl rfl

/-- A file of two gigabytes comes back with a negative size. -/
theorem getattr_not_survives : ¬ ∀ (os : Os) (path dir : Text) (st : Stat),
    handled (Callback.getattr path).request = .called (.getattr dir) →
    os.lstat (os.fullPath dir) = some st →
    ∃ ret, (Callback.getattr path).result os .whole = some ret ∧ ret.value = 0 ∧
      ret.stbuf = some st := by
  intro h
  obtain ⟨ret, hr, -, hst⟩ := h (.having (.ofUser (2 ^ 31))) "/a".toList "/a".toList
    (.ofUser (2 ^ 31)) rfl rfl
  have hsize : ((Callback.getattr "/a".toList).result (.having (.ofUser (2 ^ 31))) .whole).map
      (fun ret => ret.stbuf.map Stat.size) = some (some (-2 ^ 31)) := by decide
  rw [hr, Option.map_some, hst] at hsize
  exact absurd hsize (by decide)

theorem Callback.call_read (fh : UInt64) (size : Nat) (offset : Int) :
    (Callback.read fh size offset).call =
      .read (decNat fh.toNat) (sizeT (toInt size)) (toInt offset) := by
  rw [Callback.call, atoi_dec_toInt, atoi_dec_toInt]

theorem Callback.call_write (fh : UInt64) (buf : Text) (size : Nat) (offset : Int) :
    (Callback.write fh buf size offset).call =
      .write (decNat fh.toNat) (sizeT (toInt size)) (toInt offset)
        (Callback.write fh buf size offset).request := by
  rw [Callback.call, atoi_dec_toInt, atoi_dec_toInt]

theorem Callback.call_truncate (path : Text) (newsize : Int) :
    (Callback.truncate path newsize).call = .truncate path (toInt newsize) := by
  rw [Callback.call, atoi_dec_toInt]

theorem read_lengths_iff (fh : UInt64) (size : Nat) (offset : Int) :
    (∃ pointer, handled (Callback.read fh size offset).request =
      .called (.read pointer size offset)) ↔ SignExtended size ∧ FitsInt offset := by
  rw [handled_read, Callback.call_read, ← sizeT_toInt_eq_iff, ← toInt_eq_iff]
  constructor
  · rintro ⟨pointer, h⟩
    have hcall := Call.read.inj (Handled.called.inj h)
    exact hcall.2
  · rintro ⟨hsize, hoffset⟩
    rw [hsize, hoffset]
    exact ⟨_, rfl⟩

/-- What the server calls `pwrite` with for a write. -/
theorem pwrite_of_write (fh : UInt64) (buf : Text) (size : Nat) (offset : Int) {w : Pwrite} :
    (Callback.write fh buf size offset).call.pwrite = some w ↔
      w = ⟨atoi (decNat fh.toNat), ' ' :: buf, sizeT (toInt size), toInt offset⟩ := by
  rw [Callback.call_write, Call.pwrite, remoteWrite_request, Option.some.injEq]
  exact eq_comm

theorem write_lengths_iff (fh : UInt64) (buf : Text) (size : Nat) (offset : Int)
    (hn : nul ∉ buf) :
    (∃ call w, handled (Callback.write fh buf size offset).request = .called call ∧
      call.pwrite = some w ∧ w.size = size ∧ w.offset = offset) ↔
      SignExtended size ∧ FitsInt offset ∧
        (Callback.write fh buf size offset).request.length < 4096 := by
  rw [← sizeT_toInt_eq_iff, ← toInt_eq_iff]
  constructor
  · rintro ⟨call, w, hc, hw, hsize, hoffset⟩
    have hl := (served_of_handled hc).1
    rw [handled_request (.write fh buf size offset) hn hl] at hc
    cases hc
    obtain rfl := (pwrite_of_write fh buf size offset).mp hw
    dsimp only at hsize hoffset
    exact ⟨hsize, hoffset, hl⟩
  · rintro ⟨hsize, hoffset, hl⟩
    have hw := (pwrite_of_write fh buf size offset).mpr rfl
    rw [hsize, hoffset] at hw
    exact ⟨_, _, handled_request (.write fh buf size offset) hn hl, hw, rfl, rfl⟩

theorem truncate_lengths_iff (path : Text) (newsize : Int) (hp : Plain path) (hn : nul ∉ path) :
    (∃ p, handled (Callback.truncate path newsize).request = .called (.truncate p newsize)) ↔
      FitsInt newsize ∧ (Callback.truncate path newsize).request.length < 4096 := by
  rw [← toInt_eq_iff]
  constructor
  · rintro ⟨p, hc⟩
    have hl := (served_of_handled hc).1
    rw [handled_request (.truncate path newsize) ⟨hp, hn⟩ hl, Callback.call_truncate] at hc
    exact ⟨(Call.truncate.inj (Handled.called.inj hc)).2, hl⟩
  · rintro ⟨hv, hl⟩
    refine ⟨path, ?_⟩
    rw [handled_request (.truncate path newsize) ⟨hp, hn⟩ hl, Callback.call_truncate, hv]

/-- When the numbers of a read, a write and a truncation reach the server's system calls. -/
theorem lengths_survive_iff (fh : UInt64) (size : Nat) (offset newsize : Int) (buf path : Text)
    (hb : nul ∉ buf) (hp : Plain path) (hn : nul ∉ path) :
    ((∃ pointer, handled (Callback.read fh size offset).request =
      .called (.read pointer size offset)) ↔ SignExtended size ∧ FitsInt offset) ∧
    ((∃ call w, handled (Callback.write fh buf size offset).request = .called call ∧
      call.pwrite = some w ∧ w.size = size ∧ w.offset = offset) ↔
      SignExtended size ∧ FitsInt offset ∧
        (Callback.write fh buf size offset).request.length < 4096) ∧
    ((∃ p, handled (Callback.truncate path newsize).request = .called (.truncate p newsize)) ↔
      FitsInt newsize ∧ (Callback.truncate path newsize).request.length < 4096) := by
  refine ⟨read_lengths_iff fh size offset, ?_, ?_⟩
  · exact write_lengths_iff fh buf size offset hb
  · exact truncate_lengths_iff path newsize hp hn

theorem lengths_survive_iff_small :
    ((∃ call w, handled (Callback.write 3 "hello".toList 5 7).request = .called call ∧
      call.pwrite = some w ∧ w.size = 5 ∧ w.offset = 7) ↔
      SignExtended 5 ∧ FitsInt 7 ∧ (Callback.write 3 "hello".toList 5 7).request.length < 4096) ∧
    ((∃ p, handled (Callback.truncate "/a".toList 6).request = .called (.truncate p 6)) ↔
      FitsInt 6 ∧ (Callback.truncate "/a".toList 6).request.length < 4096) :=
  (lengths_survive_iff 3 5 7 6 "hello".toList "/a".toList (by decide) (by decide) (by decide)).2

/-- Beyond four gigabytes a read and a write go to the start of the file, and a truncation empties
it. -/
theorem lengths_not_survive :
    (¬ ∀ (fh : UInt64) (size : Nat) (offset : Int), size < 2 ^ 64 → 0 ≤ offset → offset < 2 ^ 63 →
      ∃ pointer, handled (Callback.read fh size offset).request =
        .called (.read pointer size offset)) ∧
    (¬ ∀ (fh : UInt64) (buf : Text) (size : Nat) (offset : Int), nul ∉ buf → size < 2 ^ 64 →
      0 ≤ offset → offset < 2 ^ 63 →
        ∃ call w, handled (Callback.write fh buf size offset).request = .called call ∧
          call.pwrite = some w ∧ w.size = size ∧ w.offset = offset) ∧
    (¬ ∀ (path : Text) (newsize : Int), Plain path → nul ∉ path → 0 ≤ newsize →
      newsize < 2 ^ 63 →
        ∃ p, handled (Callback.truncate path newsize).request =
          .called (.truncate p newsize)) := by
  refine ⟨fun h => ?_, fun h => ?_, fun h => ?_⟩
  · have hr := h 3 5 (2 ^ 32) (by decide) (by decide) (by decide)
    exact absurd ((read_lengths_iff 3 5 (2 ^ 32)).mp hr) (by decide)
  · have hw := h 3 "hello".toList 5 (2 ^ 32) (by decide) (by decide) (by decide) (by decide)
    have hs := (write_lengths_iff 3 "hello".toList 5 (2 ^ 32) (by decide)).mp hw
    exact absurd hs.2.1 (by decide)
  · have ht := h "/a".toList (2 ^ 32) (by decide) (by decide) (by decide) (by decide)
    have hs := (truncate_lengths_iff "/a".toList (2 ^ 32) (by decide) (by decide)).mp ht
    exact absurd hs.1 (by decide)

end NoblesseOblige.Snfs
