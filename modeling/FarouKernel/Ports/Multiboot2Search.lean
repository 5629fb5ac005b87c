import FarouKernel.Ports.Multiboot2Model

/-!
# Where the search for a tag ends

`find_multiboot2_tag` goes from tag to tag by the size field of each and never looks
at the size of the block.  `TagsTo` describes, without the search, a sequence of tags
in memory up to the first one that ends it.  The search follows such a sequence in as
many rounds as it has tags (`TagsTo.tagLoop`), and it ends inside the block only if
there is one that does (`tagsTo_of_tagLoop`).
-/

namespace FarouKernel.Ports.Multiboot2

open Verified ByteMem

/-- The next multiple of 8. -/
def roundUp (x : Nat) : Nat := (x + 7) / 8 * 8

/-- The search ends at a tag of this type. -/
def Ends (mem : ByteMem) (type tag : Nat) : Prop :=
  typeAt mem tag = tagTypeEnd ∨ typeAt mem tag = type

/-- From the first address on there are `n` tags with sizes other than 0, each at the
next multiple of 8 behind the one before, and then a tag at which the search ends. -/
inductive TagsTo (mem : ByteMem) (type : Nat) : Nat → Nat → Nat → Prop
  | last {tag : Nat} (hends : Ends mem type tag) : TagsTo mem type 0 tag tag
  | tag {n tag last : Nat} (hends : ¬Ends mem type tag) (hsize : 0 < sizeAt mem tag)
      (h : TagsTo mem type n (roundUp (tag + sizeAt mem tag)) last) :
      TagsTo mem type (n + 1) tag last

section Align

variable {x : Nat}

theorem le_roundUp (x : Nat) : x ≤ roundUp x := by
  unfold roundUp
  omega

theorem roundUp_mod (x : Nat) : roundUp x % 8 = 0 := Nat.mul_mod_left _ _

theorem align_eight_eq (x : Nat) : align x 8 = (x + 7) % 2 ^ 64 / 8 * 8 :=
  and_not64_lowMask (k := 3) (add64_lt x 7) (by decide)

/-- The next tag, if it is below `2 ^ 64`. -/
theorem align_eq_roundUp {tag size : Nat} (h : roundUp (tag + size) < 2 ^ 64) :
    align (add64 tag size) 8 = roundUp (tag + size) := by
  unfold roundUp at h ⊢
  rw [align_eight_eq, add64_of_lt (by omega), Nat.mod_eq_of_lt (by omega)]

end Align

section Search

variable {mem : ByteMem} {type n tag last rounds : Nat} {r : SearchResult}

theorem sizeAt_lt (mem : ByteMem) (tag : Nat) : sizeAt mem tag < 2 ^ 32 := readLE_lt mem (tag + 4) 4

theorem tagLoop_of_ends (hends : Ends mem type tag) :
    tagLoop mem type (rounds + 1) tag =
      some ⟨if typeAt mem tag = tagTypeEnd then 0 else tag, [tag]⟩ := by
  rw [tagLoop]
  by_cases hend : typeAt mem tag = tagTypeEnd
  · rw [if_pos hend, if_pos hend]
  · rw [if_neg hend, if_neg hend, if_pos (hends.resolve_left hend)]

theorem tagLoop_of_not_ends (hends : ¬Ends mem type tag) :
    tagLoop mem type (rounds + 1) tag =
      (tagLoop mem type rounds (align (add64 tag (sizeAt mem tag)) 8)).map
        fun r => { r with reads := tag :: r.reads } := by
  rw [tagLoop, if_neg fun h => hends (Or.inl h), if_neg fun h => hends (Or.inr h)]

theorem TagsTo.le (h : TagsTo mem type n tag last) : tag ≤ last := by
  induction h with
  | last => exact Nat.le_refl _
  | @tag n tag last _ _ _ ih =>
    have hup := le_roundUp (tag + sizeAt mem tag)
    omega

/-- **The search follows the tags**, reading the headers up to the last one. -/
theorem TagsTo.tagLoop (h : TagsTo mem type n tag last) (hlast : last < 2 ^ 64)
    (hrounds : n < rounds) :
    ∃ reads, Multiboot2.tagLoop mem type rounds tag =
        some ⟨if typeAt mem last = tagTypeEnd then 0 else last, reads⟩ ∧
      ∀ a ∈ reads, tag ≤ a ∧ a ≤ last := by
  induction h generalizing rounds with
  | @last tag hends =>
    cases rounds with
    | zero => omega
    | succ rounds =>
      refine ⟨[tag], tagLoop_of_ends hends, ?_⟩
      intro a ha
      rw [List.mem_singleton.mp ha]
      exact ⟨Nat.le_refl _, Nat.le_refl _⟩
  | @tag n tag last hends hsize h ih =>
    cases rounds with
    | zero => omega
    | succ rounds =>
      have hnext : align (add64 tag (sizeAt mem tag)) 8 = roundUp (tag + sizeAt mem tag) :=
        align_eq_roundUp (Nat.lt_of_le_of_lt h.le hlast)
      rcases ih hlast (Nat.lt_of_succ_lt_succ hrounds) with ⟨reads, hloop, hreads⟩
      refine ⟨tag :: reads, ?_, ?_⟩
      · rw [tagLoop_of_not_ends hends, hnext, hloop]
        rfl
      · have hup := le_roundUp (tag + sizeAt mem tag)
        have hle := h.le
        intro a ha
        rcases List.mem_cons.mp ha with rfl | hmem
        · omega
        · have hbounds := hreads a hmem
          omega

/-- A tag that leads to itself is never left. -/
theorem tagLoop_stuck (hends : ¬Ends mem type tag)
    (hnext : align (add64 tag (sizeAt mem tag)) 8 = tag) (rounds : Nat) :
    tagLoop mem type rounds tag = none := by
  induction rounds with
  | zero => rfl
  | succ rounds ih => rw [tagLoop_of_not_ends hends, hnext, ih, Option.map_none]

theorem mem_reads (h : tagLoop mem type rounds tag = some r) : tag ∈ r.reads := by
  cases rounds with
  | zero => exact absurd h (by simp [tagLoop])
  | succ rounds =>
    by_cases hends : Ends mem type tag
    · rw [tagLoop_of_ends hends, Option.some.injEq] at h
      rw [← h]
      exact List.mem_singleton_self tag
    · rw [tagLoop_of_not_ends hends, Option.map_eq_some_iff] at h
      rcases h with ⟨r', _, rfl⟩
      exact List.mem_cons_self

/-- **A search that ends inside the block has followed tags in it.** -/
theorem tagsTo_of_tagLoop {base total : Nat} (htotal : total < 2 ^ 32) (haligned : tag % 8 = 0)
    (h : tagLoop mem type rounds tag = some r)
    (hreads : ∀ a ∈ r.reads, base ≤ a ∧ a < base + total) :
    ∃ n last, TagsTo mem type n tag last ∧ last < base + total := by
  induction rounds generalizing tag r with
  | zero => exact absurd h (by simp [tagLoop])
  | succ rounds ih =>
    have htag := hreads tag (mem_reads h)
    by_cases hends : Ends mem type tag
    · exact ⟨0, tag, .last hends, htag.2⟩
    have hsmall := sizeAt_lt mem tag
    have hself : ¬align (add64 tag (sizeAt mem tag)) 8 = tag := by
      intro hstuck
      rw [tagLoop_stuck hends hstuck] at h
      exact absurd h (by simp)
    rw [tagLoop_of_not_ends hends, Option.map_eq_some_iff] at h
    rcases h with ⟨r', hloop, rfl⟩
    have hreads' : ∀ a ∈ r'.reads, base ≤ a ∧ a < base + total :=
      fun a ha => hreads a (List.mem_cons_of_mem tag ha)
    -- A sum that wraps around leads below the block.
    have hnext : align (add64 tag (sizeAt mem tag)) 8 = roundUp (tag + sizeAt mem tag) := by
      have hin := hreads' _ (mem_reads hloop)
      apply align_eq_roundUp
      unfold roundUp
      rw [align_eight_eq, add64] at hin
      omega
    rw [hnext] at hloop hself
    have hsize : 0 < sizeAt mem tag := by
      apply Nat.pos_of_ne_zero
      intro hzero
      apply hself
      unfold roundUp
      omega
    rcases ih (roundUp_mod _) hloop hreads' with ⟨n, last, htags, hlast⟩
    exact ⟨n + 1, last, .tag hends hsize htags, hlast⟩

end Search

/-- **The search inside the block.**  It ends, and reads tag headers only below
`total_size`, exactly if there is no block at all, or the tags from offset 8 on have
sizes other than 0 and lead to an end tag or to a tag of the type below `total_size`. -/
theorem tag_search_inside_iff (mem : ByteMem) (type base : Nat) (haligned : base % 8 = 0)
    (hspace : base + totalSize mem base ≤ 2 ^ 64) :
    (∃ rounds r, findMultiboot2Tag mem type base rounds = some r ∧
        ∀ a ∈ r.reads, base ≤ a ∧ a < base + totalSize mem base) ↔
      base = 0 ∨
        ∃ n last, TagsTo mem type n (base + 8) last ∧ last < base + totalSize mem base := by
  have htotal : totalSize mem base < 2 ^ 32 := readLE_lt mem base 4
  by_cases hnull : base = 0
  · refine iff_of_true ⟨0, ⟨0, []⟩, if_pos hnull, ?_⟩ (Or.inl hnull)
    exact fun a ha => absurd ha List.not_mem_nil
  have hfind : ∀ rounds, findMultiboot2Tag mem type base rounds =
      tagLoop mem type rounds (add64 base infoHeaderSize) := fun rounds => if_neg hnull
  rw [or_iff_right hnull]
  constructor
  · rintro ⟨rounds, r, hfound, hreads⟩
    rw [hfind] at hfound
    have hfirst := hreads _ (mem_reads hfound)
    have hstart : add64 base infoHeaderSize = base + 8 := by
      unfold add64 infoHeaderSize at hfirst ⊢
      omega
    rw [hstart] at hfound
    exact tagsTo_of_tagLoop htotal (by omega) hfound hreads
  · rintro ⟨n, last, htags, hlast⟩
    have hle := htags.le
    have hstart : add64 base infoHeaderSize = base + 8 :=
      add64_of_lt (by unfold infoHeaderSize; omega)
    rcases htags.tagLoop (by omega) (Nat.lt_succ_self n) with ⟨reads, hloop, hreads⟩
    refine ⟨n + 1, _, (hfind _).trans (hstart ▸ hloop), ?_⟩
    intro a ha
    have hbounds := hreads a ha
    omega

/-- A block at 4096 with a tag of the type 1, given the sizes of both; all bytes behind
are zero. -/
def smallBlock (totalSize size : UInt8) : ByteMem := fun x =>
  if x = 4096 then totalSize else if x = 4104 then 1 else if x = 4108 then size else 0

/-- The search ends at the end tag. -/
theorem tag_search_inside_closed :
    ∃ rounds r, findMultiboot2Tag (smallBlock 24 8) 6 4096 rounds = some r ∧
      ∀ a ∈ r.reads, 4096 ≤ a ∧ a < 4096 + totalSize (smallBlock 24 8) 4096 := by
  apply (tag_search_inside_iff (smallBlock 24 8) 6 4096 (by decide) (by decide)).mpr
  have hnext : roundUp (4096 + 8 + sizeAt (smallBlock 24 8) (4096 + 8)) = 4112 := by decide
  have hlast : TagsTo (smallBlock 24 8) 6 0 4112 4112 := .last (Or.inl (by decide))
  have hfirst : ¬Ends (smallBlock 24 8) 6 (4096 + 8) := by
    unfold Ends
    decide
  exact Or.inr ⟨1, 4112, .tag hfirst (by decide) (hnext ▸ hlast), by decide⟩

/-- With a tag of size 0 the search does not end; without an end tag it leaves the
block. -/
theorem tag_search_not_inside :
    (¬∃ rounds r, findMultiboot2Tag (smallBlock 24 0) 6 4096 rounds = some r) ∧
      totalSize (smallBlock 16 8) 4096 = 16 ∧
      findMultiboot2Tag (smallBlock 16 8) 6 4096 2 = some ⟨0, [4096 + 8, 4096 + 16]⟩ := by
  refine ⟨?_, by decide, by decide⟩
  rintro ⟨rounds, r, hfound⟩
  have hends : ¬Ends (smallBlock 24 0) 6 (add64 4096 infoHeaderSize) := by
    unfold Ends
    decide
  rw [findMultiboot2Tag, if_neg (by decide), tagLoop_stuck hends (by decide)] at hfound
  exact absurd hfound (by simp)

/-! ## The search in an encoded block -/

section Encoded

variable {mem : ByteMem} {type a : Nat} {t : Tag} {tags : List Tag} {rest : List UInt8}

theorem Tag.length_encode (t : Tag) :
    t.encode.length = 8 + t.payload.length + t.padding.length := by
  simp only [Tag.encode, List.length_append, length_leBytes]
  omega

/-- What the header of a tag in memory says. -/
theorem Tag.header (h : Holds mem a (t.encode ++ rest)) :
    typeAt mem a = t.type ∧ sizeAt mem a = t.size ∧ Holds mem (a + 8) t.payload := by
  have hencode := (holds_append.mp h).1
  rw [Tag.encode, holds_append, holds_append, holds_append, length_leBytes, length_leBytes,
    Nat.add_assoc] at hencode
  rcases hencode with ⟨htype, hsize, hpayload, _⟩
  refine ⟨?_, ?_, hpayload⟩
  · exact htype.readLE.trans (Nat.mod_eq_of_lt t.type_lt)
  · exact hsize.readLE.trans (Nat.mod_eq_of_lt t.size_lt)

/-- The next tag is behind the padding. -/
theorem Tag.roundUp_size (t : Tag) (ha : a % 8 = 0) :
    roundUp (a + t.size) = a + t.encode.length := by
  have hpadding := t.padding_lt
  have hpadded := t.padded
  rw [t.length_encode]
  unfold roundUp Tag.size tagSize
  omega

theorem Tag.length_encode_mod (t : Tag) : t.encode.length % 8 = 0 := by
  have hpadded := t.padded
  rw [t.length_encode]
  omega

/-- Tags of other types lead to what is behind them. -/
theorem tagsTo_encodeTags (h : Holds mem a (encodeTags tags ++ rest)) (ha : a % 8 = 0)
    (hother : ∀ u ∈ tags, u.type ≠ type)
    (hends : Ends mem type (a + (encodeTags tags).length)) :
    TagsTo mem type tags.length a (a + (encodeTags tags).length) := by
  induction tags generalizing a with
  | nil => exact .last hends
  | cons t tags ih =>
    have hcons : encodeTags (t :: tags) = t.encode ++ encodeTags tags := List.flatMap_cons
    rw [hcons, List.append_assoc] at h
    rw [hcons, List.length_append, ← Nat.add_assoc] at hends ⊢
    rcases Tag.header h with ⟨htype, hsize, _⟩
    have hlength := t.length_encode_mod
    have hnext := ih (holds_append.mp h).2 (by omega)
      (fun u hu => hother u (List.mem_cons_of_mem t hu)) hends
    rw [← t.roundUp_size ha, ← hsize] at hnext
    have hthis : ¬Ends mem type a := by
      unfold Ends
      rw [htype, not_or]
      exact ⟨t.type_ne, hother t List.mem_cons_self⟩
    rw [← t.roundUp_size ha, ← hsize]
    refine .tag hthis ?_ hnext
    rw [hsize]
    exact Nat.add_pos_left (by decide) _

/-- The tags of a block, at the address where they are. -/
theorem holds_tags {base reserved : Nat} {before after : List Tag}
    (hblock : Holds mem base (encodeBlock reserved (before ++ after))) :
    Holds mem (base + 8) (encodeTags before ++ (encodeTags after ++ endTag)) := by
  rw [encodeBlock, holds_append] at hblock
  have htags := hblock.2
  rwa [List.length_append, length_leBytes, length_leBytes, encodeTags, List.flatMap_append,
    List.append_assoc] at htags

/-- The search passes the tags of other types. -/
theorem find_of_split {base reserved rounds : Nat} {before after : List Tag}
    (hbase : base ≠ 0) (haligned : base % 8 = 0)
    (hspace : base + (encodeBlock reserved (before ++ after)).length ≤ 2 ^ 64)
    (hblock : Holds mem base (encodeBlock reserved (before ++ after)))
    (hother : ∀ u ∈ before, u.type ≠ type) (hrounds : before.length < rounds)
    (hends : Ends mem type (base + 8 + (encodeTags before).length)) :
    (findMultiboot2Tag mem type base rounds).map SearchResult.tag =
      some (if typeAt mem (base + 8 + (encodeTags before).length) = tagTypeEnd then 0
        else base + 8 + (encodeTags before).length) := by
  have hlength : (encodeBlock reserved (before ++ after)).length =
      16 + (encodeTags before).length + (encodeTags after).length := by
    simp only [encodeBlock, encodeTags, endTag, List.flatMap_append, List.length_append,
      length_leBytes]
    omega
  have hstart : add64 base infoHeaderSize = base + 8 :=
    add64_of_lt (by unfold infoHeaderSize; omega)
  have htags := tagsTo_encodeTags (holds_tags hblock) (by omega) hother hends
  rcases htags.tagLoop (by omega) hrounds with ⟨reads, hloop, _⟩
  rw [findMultiboot2Tag, if_neg hbase, hstart, hloop, Option.map_some]

end Encoded

/-- **The first tag of a type.**  In a block laid out as the format requires, at any
address, the search returns the first tag of the type, which has its type, size and
payload, and `NULL` if there is none; the end tag is never returned. -/
theorem find_multiboot2_tag_first (mem : ByteMem) (base reserved type rounds : Nat)
    (tags : List Tag) (hbase : base ≠ 0) (haligned : base % 8 = 0)
    (hspace : base + (encodeBlock reserved tags).length ≤ 2 ^ 64)
    (hblock : Holds mem base (encodeBlock reserved tags)) (hrounds : tags.length < rounds) :
    (∀ before t after, tags = before ++ t :: after → (∀ u ∈ before, u.type ≠ type) →
        t.type = type →
          ∃ tag, tag = base + infoHeaderSize + (encodeTags before).length ∧
            (findMultiboot2Tag mem type base rounds).map SearchResult.tag = some tag ∧
            typeAt mem tag = t.type ∧ sizeAt mem tag = t.size ∧
            Holds mem (tag + tagSize) t.payload) ∧
      ((∀ t ∈ tags, t.type ≠ type) →
        (findMultiboot2Tag mem type base rounds).map SearchResult.tag = some 0) ∧
      (type = tagTypeEnd →
        (findMultiboot2Tag mem type base rounds).map SearchResult.tag = some 0) := by
  have hnone : (∀ t ∈ tags, t.type ≠ type) →
      (findMultiboot2Tag mem type base rounds).map SearchResult.tag = some 0 := by
    intro hother
    rw [← List.append_nil tags] at hspace hblock
    have hend : Holds mem (base + 8 + (encodeTags tags).length) endTag :=
      (holds_append.mp (holds_tags hblock)).2
    rw [endTag, holds_append] at hend
    have htype : typeAt mem (base + 8 + (encodeTags tags).length) = tagTypeEnd := hend.1.readLE
    rw [find_of_split hbase haligned hspace hblock hother hrounds (Or.inl htype), if_pos htype]
  refine ⟨?_, hnone, ?_⟩
  · rintro before t after rfl hother htype
    rw [List.length_append, List.length_cons] at hrounds
    have hrest := (holds_append.mp (holds_tags hblock)).2
    rw [show encodeTags (t :: after) = t.encode ++ encodeTags after from List.flatMap_cons,
      List.append_assoc] at hrest
    rcases Tag.header hrest with ⟨htypeAt, hsizeAt, hpayload⟩
    refine ⟨_, rfl, ?_, htypeAt, hsizeAt, hpayload⟩
    rw [find_of_split hbase haligned hspace hblock hother (by omega)
      (Or.inr (htypeAt.trans htype)), if_neg (by rw [htypeAt]; exact t.type_ne)]
    rfl
  · rintro rfl
    exact hnone fun t _ => t.type_ne

/-- A block with two tags of the type 1, with the payloads `AB` and `C`. -/
def sampleTags : List Tag :=
  [⟨1, [65, 66], [0, 0, 0, 0, 0, 0], by decide, by decide, by decide, by decide, by decide⟩,
    ⟨1, [67], [0, 0, 0, 0, 0, 0, 0], by decide, by decide, by decide, by decide, by decide⟩]

/-- The memory with that block at 4096. -/
def sampleBlock : ByteMem := fun x => (encodeBlock 0 sampleTags).getD (x - 4096) 0

/-- The first of the two is found, and no tag of the type 6. -/
theorem find_multiboot2_tag_sample :
    (findMultiboot2Tag sampleBlock 1 4096 3).map SearchResult.tag = some 4104 ∧
      Holds sampleBlock (4104 + 8) [65, 66] ∧
      (findMultiboot2Tag sampleBlock 6 4096 3).map SearchResult.tag = some 0 := by
  have hblock : Holds sampleBlock 4096 (encodeBlock 0 sampleTags) := by decide
  have hspace : 4096 + (encodeBlock 0 sampleTags).length ≤ 2 ^ 64 := by decide
  have hone := (find_multiboot2_tag_first sampleBlock 4096 0 1 3 sampleTags (by decide)
    (by decide) hspace hblock (by decide)).1 [] _ _ rfl (by decide) rfl
  have hsix := (find_multiboot2_tag_first sampleBlock 4096 0 6 3 sampleTags (by decide)
    (by decide) hspace hblock (by decide)).2.1 (by decide)
  rcases hone with ⟨tag, rfl, hfound, _, _, hpayload⟩
  exact ⟨hfound, hpayload, hsix⟩

end FarouKernel.Ports.Multiboot2
