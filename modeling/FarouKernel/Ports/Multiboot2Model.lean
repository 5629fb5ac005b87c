import FarouKernel.Verified.ByteLayout
import FarouKernel.Verified.Word64

/-!
# `bootloader/src/core/multiboot2_parser.c`: the search for a tag

A translation of `find_multiboot2_tag` and of the format of the information block
that it walks through.  Pointers are 64-bit numbers, `NULL` is 0.  The loop has no
bound of its own, so its model has a number of rounds; besides the pointer it returns
the addresses of the tag headers that were read.

The functions that print what a tag says are left out, and so is the error message
for `NULL`.
-/

namespace FarouKernel.Ports.Multiboot2

open Verified ByteMem

/-! ## The search -/

def align (x a : Nat) : Nat := add64 x (a - 1) &&& not64 (a - 1)

/-- `MULTIBOOT2_TAG_TYPE_END`. -/
def tagTypeEnd : Nat := 0

/-- `sizeof(struct multiboot2_info_header)`. -/
def infoHeaderSize : Nat := 8

/-- `sizeof(struct multiboot2_tag)`. -/
def tagSize : Nat := 8

/-- `mb_info->total_size`. -/
def totalSize (mem : ByteMem) (info : Nat) : Nat := readLE mem info 4

/-- `tag->type`. -/
def typeAt (mem : ByteMem) (tag : Nat) : Nat := readLE mem tag 4

/-- `tag->size`. -/
def sizeAt (mem : ByteMem) (tag : Nat) : Nat := readLE mem (tag + 4) 4

/-- The pointer that is returned and the tag headers that were read. -/
structure SearchResult where
  tag : Nat
  reads : List Nat
deriving DecidableEq

/-- The loop of `find_multiboot2_tag`, if it ends within so many rounds. -/
def tagLoop (mem : ByteMem) (type : Nat) : Nat → Nat → Option SearchResult
  | 0, _ => none
  | rounds + 1, tag =>
    if typeAt mem tag = tagTypeEnd then some ⟨0, [tag]⟩
    else if typeAt mem tag = type then some ⟨tag, [tag]⟩
    else
      (tagLoop mem type rounds (align (add64 tag (sizeAt mem tag)) 8)).map
        fun r => { r with reads := tag :: r.reads }

/-- `find_multiboot2_tag`. -/
def findMultiboot2Tag (mem : ByteMem) (type info rounds : Nat) : Option SearchResult :=
  if info = 0 then some ⟨0, []⟩
  else tagLoop mem type rounds (add64 info infoHeaderSize)

/-! ## The format -/

/-- A tag with the bytes that fill it up to a multiple of 8. -/
structure Tag where
  type : Nat
  payload : List UInt8
  padding : List UInt8
  type_ne : type ≠ tagTypeEnd
  type_lt : type < 2 ^ 32
  size_lt : tagSize + payload.length < 2 ^ 32
  padding_lt : padding.length < 8
  padded : (payload.length + padding.length) % 8 = 0

/-- The size field of a tag does not count the padding. -/
def Tag.size (t : Tag) : Nat := tagSize + t.payload.length

/-- The bytes of a tag. -/
def Tag.encode (t : Tag) : List UInt8 :=
  leBytes t.type 4 ++ (leBytes t.size 4 ++ (t.payload ++ t.padding))

/-- The bytes of the tags in front of the end tag. -/
def encodeTags (tags : List Tag) : List UInt8 := tags.flatMap Tag.encode

/-- The end tag. -/
def endTag : List UInt8 := leBytes tagTypeEnd 4 ++ leBytes tagSize 4

/-- The bytes of an information block. -/
def encodeBlock (reserved : Nat) (tags : List Tag) : List UInt8 :=
  leBytes (infoHeaderSize + (encodeTags tags).length + tagSize) 4 ++ leBytes reserved 4 ++
    (encodeTags tags ++ endTag)

end FarouKernel.Ports.Multiboot2
