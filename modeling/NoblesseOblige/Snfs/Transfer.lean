import NoblesseOblige.Snfs.Outcome

namespace NoblesseOblige.Snfs
open CString
set_option autoImplicit true

/-- Both messages of an exchange arrive whole. -/
def Connection.whole : Connection := .connected 4096 4096

/-- What a callback returns and stores, if it is defined. -/
def Callback.result (os : Os) (conn : Connection) (cb : Callback) : Option Return :=
  (sendRequestToServer os conn cb.request).text.bind cb.finish

theorem Callback.result_whole (os : Os) {cb : Callback} {call : Call}
    (h : handled cb.request = .called call) :
    cb.result os .whole = cb.finish (call.received os 4096) := by
  have hl := (served_of_handled h).1
  rw [Callback.result, Connection.whole, sendRequestToServer,
    List.take_of_length_le (Nat.le_of_lt hl), h]
  rfl

/-- A name that a directory can hold. -/
def LegalName (name : Text) : Prop := name ≠ [] ∧ nul ∉ name ∧ '/' ∉ name

instance (name : Text) : Decidable (LegalName name) :=
  inferInstanceAs (Decidable (_ ∧ _ ∧ _))

/-- The list that `remote_readdir` builds. -/
def entryList (names : List Text) : Text := names.flatMap fun name => ", ".toList ++ name

theorem entryList_cons (name : Text) (names : List Text) :
    entryList (name :: names) = ", ".toList ++ (name ++ entryList names) := by
  rw [entryList, List.flatMap_cons, List.append_assoc, ← entryList]

theorem nul_notMem_entryList {names : List Text} (h : ∀ name ∈ names, LegalName name) :
    nul ∉ entryList names := by
  intro hm
  obtain ⟨name, hname, hc⟩ := List.mem_flatMap.mp hm
  exact notMem_append (by decide) (h name hname).2.1 hc

theorem entryList_length (names : List Text) :
    (entryList names).length = (names.map fun name => name.length + 2).sum := by
  induction names with
  | nil => rfl
  | cons name names ih =>
    have hsep : (", ".toList).length = 2 := by decide
    rw [entryList_cons, List.length_append, List.length_append, ih, hsep, List.map_cons,
      List.sum_cons]
    omega

theorem tokens_entryList {names : List Text} (h : ∀ name ∈ names, Plain name) :
    tokens delim (entryList names) = names := by
  induction names with
  | nil => rfl
  | cons name names ih =>
    have hname := h name List.mem_cons_self
    have hrest := ih fun w hw => h w (List.mem_cons_of_mem _ hw)
    have hsep : ∀ s, tokens delim (", ".toList ++ s) = tokens delim s := fun s =>
      (tokens_delim rfl _).trans (tokens_delim rfl s)
    rw [entryList_cons, hsep]
    cases names with
    | nil =>
      rw [entryList, List.flatMap_nil, List.append_nil, tokens_of_some hname.strtok_end]
      rfl
    | cons name' names =>
      rw [entryList_cons] at hrest ⊢
      rw [tokens_of_some (hname.strtok_sep _), tokens_delim rfl, ← hsep, hrest]

/-- If no name holds a delimiter, the last character of the list is part of a name. -/
theorem getLast_entryList {names : List Text} (h : ∀ name ∈ names, Plain name) :
    ∀ c ∈ (entryList names).getLast?, delim c = false := by
  intro c hc
  induction names with
  | nil => cases hc
  | cons name names ih =>
    have hname := h name List.mem_cons_self
    rw [entryList_cons, List.getLast?_append, List.getLast?_append] at hc
    cases hl : (entryList names).getLast? with
    | some d =>
      rw [hl] at hc
      cases hc
      exact ih (fun w hw => h w (List.mem_cons_of_mem _ hw)) hl
    | none =>
      rw [hl, List.getLast?_eq_some_getLast hname.1] at hc
      cases hc
      exact hname.2 _ (List.getLast_mem hname.1)

/-- A listing that is cut short loses at least the end of its last name. -/
theorem length_le_of_tokens_take {names : List Text} (h : ∀ name ∈ names, Plain name)
    (ht : tokens delim ((entryList names).take n) = names) : (entryList names).length ≤ n := by
  by_contra hlt
  have hfull := congrArg List.flatten (tokens_entryList h)
  have hcut := congrArg List.flatten ht
  rw [tokens_flatten] at hfull hcut
  have hsplit := congrArg (List.filter fun c => !delim c)
    (List.take_append_drop n (entryList names))
  rw [List.filter_append, hcut, hfull] at hsplit
  have hdrop := List.filter_eq_nil_iff.mp (List.append_right_eq_self.mp hsplit)
  have hne : (entryList names).drop n ≠ [] := by
    intro he
    have := List.drop_eq_nil_iff.mp he
    omega
  have hlast := hdrop _ (List.getLast_mem hne)
  rw [List.getLast_drop, getLast_entryList h _ (List.getLast_mem_getLast? _)] at hlast
  exact hlast rfl

theorem plain_iff {name : Text} (h : LegalName name) : Plain name ↔ ' ' ∉ name ∧ ',' ∉ name := by
  constructor
  · exact fun hp => ⟨fun hm => absurd (hp.2 ' ' hm) (by decide), hp.comma_notMem⟩
  · refine fun hs => ⟨h.1, fun c hc => ?_⟩
    have hspace : c ≠ ' ' := fun he => hs.1 (he ▸ hc)
    have hcomma : c ≠ ',' := fun he => hs.2 (he ▸ hc)
    simp [delim, hspace, hcomma]

/-- A listing comes through exactly if no name holds a delimiter and the list fits a response. -/
theorem listing_iff (os : Os) (path dir : Text)
    (hc : handled (Callback.readdir path).request = .called (.readdir dir))
    (ho : os.opendir (os.fullPath dir) ≠ 0)
    (hn : ∀ name ∈ os.entries (os.fullPath dir), LegalName name) :
    ((Callback.readdir path).result os .whole).map Return.names =
        some (os.entries (os.fullPath dir)) ↔
      (∀ name ∈ os.entries (os.fullPath dir), ' ' ∉ name ∧ ',' ∉ name) ∧
        ((os.entries (os.fullPath dir)).map fun name => name.length + 2).sum ≤ 4096 := by
  have hr : (Call.readdir dir).received os 4096 =
      (entryList (os.entries (os.fullPath dir))).take 4096 := by
    rw [Call.received, Call.response, if_pos ho]
    exact recvText_terminated (nul_notMem_entryList hn) os.heap 4096
  rw [Callback.result_whole os hc, hr, finish_readdir, Option.map_some, Option.some.injEq,
    ← entryList_length]
  generalize os.entries (os.fullPath dir) = names at hn
  constructor
  · intro ht
    have hp : ∀ name ∈ names, Plain name := fun name hm =>
      ⟨(hn name hm).1, fun c hc => notDelim_of_mem_tokens (ht.symm ▸ hm) hc⟩
    exact ⟨fun name hm => (plain_iff (hn name hm)).mp (hp name hm),
      length_le_of_tokens_take hp ht⟩
  · rintro ⟨hd, hl⟩
    rw [List.take_of_length_le hl]
    exact tokens_entryList fun name hm => (plain_iff (hn name hm)).mpr (hd name hm)

/-- A system in which every directory holds these names. -/
def Os.listing (names : List Text) : Os :=
  { Os.failing with
    opendir := fun _ => 1
    entries := fun _ => names }

/-- Names of several lengths come through in their order, unless one holds a comma or there are too
many of them. -/
theorem listing_iff_several :
    ((Callback.readdir "/".toList).result
        (.listing [".".toList, "..".toList, "notes.txt".toList, "b".toList]) .whole).map
          Return.names =
        some [".".toList, "..".toList, "notes.txt".toList, "b".toList] ∧
      ((Callback.readdir "/".toList).result
        (.listing [".".toList, "a,b".toList, "c".toList]) .whole).map Return.names ≠
        some [".".toList, "a,b".toList, "c".toList] ∧
      ((Callback.readdir "/".toList).result
        (.listing ("..".toList :: List.replicate 1365 "a".toList)) .whole).map Return.names ≠
        some ("..".toList :: List.replicate 1365 "a".toList) := by
  refine ⟨(listing_iff (.listing _) "/".toList "/".toList rfl (by decide) ?_).mpr ?_,
    fun h => ?_, fun h => ?_⟩
  · change ∀ name ∈ [".".toList, "..".toList, "notes.txt".toList, "b".toList], LegalName name
    decide
  · exact ⟨by decide, by decide⟩
  · have hn := (listing_iff (.listing _) "/".toList "/".toList rfl (by decide) (by decide)).mp h
    exact absurd hn.1 (by decide)
  · have hn := (listing_iff (.listing _) "/".toList "/".toList rfl (by decide) ?_).mp h
    · have hl := hn.2
      simp only [Os.listing, List.map_cons, List.map_replicate, List.sum_cons,
        List.sum_replicate_nat] at hl
      exact absurd hl (by decide)
    · intro name hm
      rcases List.mem_cons.mp hm with rfl | hm
      · decide
      · obtain rfl := List.eq_of_mem_replicate hm
        decide

/-- An entry with a space in its name is listed as two. -/
theorem listing_not : ¬ ∀ (os : Os) (path dir : Text),
    handled (Callback.readdir path).request = .called (.readdir dir) →
    os.opendir (os.fullPath dir) ≠ 0 →
    (∀ name ∈ os.entries (os.fullPath dir), LegalName name) →
    ((Callback.readdir path).result os .whole).map Return.names =
      some (os.entries (os.fullPath dir)) := by
  intro h
  have := h (.listing ["a b".toList]) "/".toList "/".toList rfl (by decide) (by
    intro name hm
    obtain rfl := List.mem_singleton.mp hm
    exact ⟨by decide, by decide, by decide⟩)
  revert this
  decide

section
variable {fh : UInt64} {size : Nat} {offset : Int}

/-- What `pread` finds in a file: as many bytes as there are from the offset on, `size` at most. -/
def fileBytes (content : List Char) (size : Nat) (offset : Int) : List Char :=
  (content.drop offset.toNat).take size

/-- The descriptor is open for a file with this content. -/
def Os.Reads (os : Os) (fd : Int) (content : List Char) : Prop :=
  ∀ size offset, 0 ≤ offset → os.pread fd size offset = some (fileBytes content size offset)

/-- Memory from `buf` on after `strcpy(buf, response)`. -/
def Return.store (ret : Return) (memory : List Char) : List Char :=
  ret.buf ++ nul :: memory.drop (ret.buf.length + 1)

/-- A read returns how many bytes there are, puts them at the start of its buffer and leaves what
lies behind the buffer as it was. -/
def Return.Delivers (ret : Return) (content : List Char) (size : Nat) (offset : Int) : Prop :=
  ret.value = min (size : Int) (max 0 (content.length - offset)) ∧
    ∀ memory : List Char, size ≤ memory.length →
      (ret.store memory).take ret.value.toNat = fileBytes content size offset ∧
        (ret.store memory).drop size = memory.drop size

theorem fileBytes_length (content : List Char) (size : Nat) (h : 0 ≤ offset) :
    ((fileBytes content size offset).length : Int) =
      min (size : Int) (max 0 (content.length - offset)) := by
  rw [fileBytes, List.length_take, List.length_drop]
  omega

theorem Return.store_length (ret : Return) (memory : List Char) :
    (ret.store memory).length = max (ret.buf.length + 1) memory.length := by
  rw [Return.store, List.length_append, List.length_cons, List.length_drop]
  omega

/-- `strcpy` also puts a terminator behind the text. -/
theorem Return.delivers_iff {ret : Return} {content : List Char} (hv : ret.value = ret.buf.length)
    (h : 0 ≤ offset) : ret.Delivers content size offset ↔
      ret.buf = fileBytes content size offset ∧ ret.buf.length < size := by
  have htake (memory : List Char) : (ret.store memory).take ret.value.toNat = ret.buf := by
    rw [hv, Int.toNat_natCast, Return.store, List.take_left]
  rw [Return.Delivers, ← fileBytes_length content size h, hv]
  constructor
  · rintro ⟨hl, hm⟩
    have hb := (hm (List.replicate size nul) (by simp)).1
    rw [← hv, htake] at hb
    refine ⟨hb, ?_⟩
    have hlen := congrArg List.length (hm (List.replicate size nul) (by simp)).2
    rw [List.length_drop, List.length_drop, Return.store_length, List.length_replicate] at hlen
    omega
  · rintro ⟨hb, hl⟩
    refine ⟨by rw [hb], fun memory hs => ⟨by rw [← hv, htake, hb], ?_⟩⟩
    rw [Return.store, List.drop_append, List.drop_of_length_le (by omega), List.nil_append,
      show size - ret.buf.length = size - ret.buf.length - 1 + 1 by omega, List.drop_succ_cons,
      List.drop_drop]
    congr 1
    omega

theorem received_read (os : Os) {data : List Char} (hd : nul ∉ data) (hs : data.length < size)
    (hf : os.pread (atoi pointer) size offset = some data) :
    (Call.read pointer size offset).received os 4096 = data.take 4096 := by
  obtain ⟨k, hk⟩ : ∃ k, size - data.length = k + 1 := ⟨size - data.length - 1, by omega⟩
  rw [Call.received, Call.response, hf]
  simp only [Option.getD_some, hk, List.replicate_succ, List.append_assoc, List.cons_append]
  exact recvText_terminated hd _ 4096

theorem received_text (os : Os) (call : Call) (n : Nat) :
    nul ∉ call.received os n ∧ (call.received os n).length ≤ 4096 := by
  unfold Call.received
  split
  · refine ⟨fun h => ?_, ?_⟩
    · have := List.mem_takeWhile_imp h
      simp at this
    · exact ((List.takeWhile_prefix _).length_le).trans (List.length_take_le 4096 _)
  · exact ⟨List.not_mem_nil, Nat.zero_le _⟩

theorem handled_read (fh : UInt64) (size : Nat) (offset : Int) :
    handled (Callback.read fh size offset).request =
      .called (Callback.read fh size offset).call := by
  refine handled_request (.read fh size offset) trivial ?_
  have hname : ("read".toList).length = 4 := by decide
  have hsep : (", ".toList).length = 2 := by decide
  have hfh := decNat_length fh
  have hsize := dec_length (toInt_bounds size).1 (toInt_bounds size).2
  have hoffset := dec_length (toInt_bounds offset).1 (toInt_bounds offset).2
  rw [Callback.read_request]
  simp only [List.length_append, hname, hsep]
  omega

/-- A read delivers the bytes of the file exactly if there is no terminator among them, the file
ends before as many as were asked for, and they fit a response. -/
theorem read_delivers_iff (os : Os) (fh : UInt64) (content : List Char) (size : Nat)
    (offset : Int) (hfd : fh.toNat < 2 ^ 31) (hf : os.Reads fh.toNat content) (hsize : 1 ≤ size)
    (hsize' : size ≤ 131072) (h0 : 0 ≤ offset) (h31 : offset < 2 ^ 31) :
    (∃ ret, (Callback.read fh size offset).result os .whole = some ret ∧
      ret.Delivers content size offset) ↔
        nul ∉ fileBytes content size offset ∧ content.length - offset < size ∧
          content.length - offset ≤ 4096 := by
  have hlen := fileBytes_length content size h0
  have hcall : (Callback.read fh size offset).call = .read (decNat fh.toNat) size offset := by
    rw [Callback.call, toInt_of_nonneg (Int.natCast_nonneg _) (by omega), toInt_of_nonneg h0 h31,
      atoi_dec (by omega) (by omega), atoi_dec (by omega) h31, sizeT_natCast (by omega)]
  have hpread : os.pread (atoi (decNat fh.toNat)) size offset =
      some (fileBytes content size offset) := by
    rw [atoi_decNat hfd]
    exact hf size offset h0
  have hd : (∃ ret, (Callback.read fh size offset).result os .whole = some ret ∧
      ret.Delivers content size offset) ↔
        (Call.read (decNat fh.toNat) size offset).received os 4096 =
          fileBytes content size offset ∧
        ((Call.read (decNat fh.toNat) size offset).received os 4096).length < size := by
    rw [Callback.result_whole os (handled_read fh size offset), hcall, Callback.finish]
    simp only [Option.some.injEq, exists_eq_left']
    exact Return.delivers_iff rfl h0
  rw [hd]
  constructor
  · rintro ⟨ht, hl⟩
    obtain ⟨hn, h4096⟩ := received_text os (.read (decNat fh.toNat) size offset) 4096
    rw [ht] at hn hl h4096
    exact ⟨hn, by omega, by omega⟩
  · rintro ⟨hn, hl, h4096⟩
    have ht := received_read os hn (by omega) hpread
    rw [List.take_of_length_le (by omega)] at ht
    rw [ht]
    exact ⟨rfl, by omega⟩

end

/-- A system in which every descriptor is open for a file with this content. -/
def Os.holding (content : List Char) : Os :=
  { Os.failing with
    pread := fun _ size offset => some (fileBytes content size offset) }

theorem read_delivers_iff_short :
    (∃ ret, (Callback.read 3 10 1).result (.holding "hello".toList) .whole = some ret ∧
      ret.Delivers "hello".toList 10 1) ↔
        nul ∉ fileBytes "hello".toList 10 1 ∧ ("hello".toList.length : Int) - 1 < (10 : Nat) ∧
          ("hello".toList.length : Int) - 1 ≤ 4096 :=
  read_delivers_iff (.holding "hello".toList) 3 "hello".toList 10 1 (by decide)
    (fun _ _ _ => rfl) (by decide) (by decide) (by decide) (by decide)

/-- Reading five bytes of a file of five bytes puts a terminator behind the buffer. -/
theorem read_not_delivers : ¬ ∀ (os : Os) (fh : UInt64) (content : List Char) (size : Nat)
    (offset : Int), fh.toNat < 2 ^ 31 → os.Reads fh.toNat content → 1 ≤ size → size ≤ 131072 →
      0 ≤ offset → offset < 2 ^ 31 →
        ∃ ret, (Callback.read fh size offset).result os .whole = some ret ∧
          ret.Delivers content size offset := by
  intro h
  obtain ⟨ret, hr, -, hm⟩ := h (.holding "hello".toList) 3 "hello".toList 5 0 (by decide)
    (fun _ _ _ => rfl) (by decide) (by decide) (by decide) (by decide)
  have hb : ((Callback.read 3 5 0).result (.holding "hello".toList) .whole).map Return.buf =
      some "hello".toList := by decide
  rw [hr] at hb
  have hdrop := (hm (List.replicate 5 ' ') (by decide)).2
  rw [Return.store, Option.some.inj hb] at hdrop
  revert hdrop
  decide

end NoblesseOblige.Snfs
