import ParseForest.Text.Property

/-!
# Boundaries in text

The classes of characters by which a text is cut into user-perceived characters, words and
sentences. Names are in lower case and without separators. Many classes differ by a few
members from a property or a general category, and are given by that difference.
-/

namespace ParseForest

/-- Hangul syllables without a final consonant: every twenty-eighth. -/
def CharSet.openSyllables : CharSet :=
  ⟨((List.range 399).flatMap fun k => [0xAC00 + 28 * k, 0xAC00 + 28 * k + 1]).toArray⟩

/-- Hangul syllables. -/
def CharSet.syllables : CharSet := .range 0xAC00 0xD7A3

/-- Characters that attach to the one before them, skin tones included. -/
def CharSet.attached : CharSet := CharSet.graphemeExtend.union (.listed "emojimodifier")

/-- Characters that attach to the one before them, vowel signs included. -/
def CharSet.attachedInWords : CharSet := CharSet.attached.union (.ofCategories ["mc"])

/-- The members of the class of characters inside which no user-perceived character ends. -/
def graphemeBreak? (name : String) : Option CharSet :=
  match name with
  | "cr" => some (.ofGaps "d 1")
  | "cn" | "control" => some (.ofGaps
    "0 a 1 2 1 i 2n x d 1 12m 1 3jl 1 1ks 1 2 2 o 7 1d g 17yn 1 6o c ab8 g qxs 4 43z 8 h405 w 2o
    3k 6o 2s0")
  | "ex" | "extend" => some CharSet.attached
  | "l" => some (.ofGaps "3cw 2o u0w t")
  | "lf" => some (.ofGaps "a 1")
  | "lv" => some CharSet.openSyllables
  | "lvt" => some (CharSet.syllables.diff .openSyllables)
  | "pp" | "prepend" => some (.ofGaps
    "16o 6 5z 1 1d 1 ao 2 28 1 vf 1 1f8u 1 f 1 6s 2 el 1 12l 1 1 1 6w 1 21 6 jg 1 cb 1")
  | "ri" | "regionalindicator" => some (.ofGaps "2qcm q")
  | "sm" | "spacingmark" => some (.ofGaps
    "1s3 1 1j 1 2 3 8 4 1 2 1e 2 1n 2 6 2 2 2 1i 1 1m 3 1u 1 1m 3 8 1 1 2 1h 2 1o 1 6 2 2 2 36 1
    1 2 3 3 1 3 1g 3 1p 4 1p 2 1m 1 2 1 1 2 1a 1 e 2 1n 2 5 3 1 3 1h 2 24 2 6 7 j 2 1r 1 3j 1 3u
    2 1r 1 4x 1 9 2 p 2 18 1 1f5 1 7 8 1 2 9m 4 2 3 4 2 1 6 68 2 1m 1 1 1 l 6 41 1 1l 4 1s 1 u 1
    4 2 1r 1 2 3 1 1 1h 8 8 2 4r 1 l 1 rhn 2 2 1 2g 2 1e g 3y 1 1c 1 1c 2 4 2 2 2 33 2 2 2 o 1 4d
    1 2 2 5 1 6l 2 1 2 1 2 1 1 jrn 1 1 1 3j 1 19 3 4 2 37 1 o 2 1n 1 1c 3 9 1 e 1 2l 3 3 2 4s 3 v
    2 1n 1 1 4 2 2 2 2 l 2 2d 2 f 1 1 2 2v 3 8 2 3 1 2z 2 6 1 1 2 1 1 2 1 6m 2 6 4 2 1 35 3 8 2 1
    1 31 1 1 2 32 1 7 1 79 3 9 1 6w 5 1 2 7 1 1 1 3y 3 8 4 4 1 2c 1 t 2 1q 1 bb 1 e 1 2y 1 7 1 2
    1 5x 5 4 2 1 1 9q 2 c 1 1c 2 8 2 d0q 3 2sk 1j")
  | "t" => some (.ofGaps "3hk 2g 132j 1d")
  | "v" => some (.ofGaps "3fk 20 1348 n tjw 1 3 4")
  | "zwj" => some (.ofGaps "6bx 1")
  | _ => none

/-- The members of the class of characters by which words are told. -/
def wordBreak? (name : String) : Option CharSet :=
  match name with
  | "le" | "aletter" => some (CharSet.alphabetic.symmDiff (.ofGaps
    "jm 4 c 6 6 2 5 7 1 1 1 h 1x 1 t d dm 3 1 1 17 1 11 e 1 1 1 2 1 2 1 1 8 r 4 5 s b 1c d 1 7 g
    1 2t 7 4 4 2 2 4 1 x 1 1 1 u g 2u b 2t 2 3 9 1 3 1 4 2y 1 1o c 3 7 6 k 1i 2 2 f 1 2 5 3 a 2 t
    3 1m 7 2 2 2 2 a 1 a 2 t 3 1m 5 4 2 2 2 4 1 u 2 3 1 b 3 1m 8 1 3 1 2 l 2 m 3 4 3 1m 7 2 2 2 2
    9 2 a 2 u 1 1n 5 3 3 1 3 a 1 14 5 1l 7 1 3 1 3 8 2 b 2 t 3 1m 7 1 3 1 3 8 2 b 2 f 1 c 4 1m 7
    1 3 1 3 a 1 a 2 t 3 23 6 1 1 1 8 i 2 d 1m 5 7 6 1 1f 2 1 1 1 5 1 o 1 1 1 j 1 3 2 5 1 1 6 1 e
    4 41 j 9 b 1 10 1v 1j 1 1 2 5 g 1s a 4 19w 2 u 2 u 2 u 2 c 1g 2 j e 1 4 1 4o 2 y 1 3a c 4 9 n
    u 2 5 b 18 4 q 25 5 4 1r 2 k 1e 1 n 2 b 3 1d 5 1c f 1o 3 u 9 2 2 1l b 1e j bg y 357 w ee 2 p
    9 7 5 2 3 6 2e 6 3 1 2i 1 4 6o g e8 534 1s g74 19w 8 y 2 2w f 9 2 2v 2 3b 1 8 1 n 5 2g 2 1e g
    1 1 1l 1 12 5 s c 19 4 1c c w g a 5 16 e c 1 8 2 i n 3 1x 1 1 1 1 o 3 d 5 5 1 2t 1 3r 8 f85
    a6 2 2y 1v c 1 d 1 5 1 1 1 2 1 2 1 a t2 1m ra 5 1ae 3 1 2 5 4 lw 4 1t 1 8x 2 27 1 77 3 1h e
    19 2 b 3 19 9 9 1 1p 3 10 c i 2 1l 3 1c d e 2 2k 9 2 1 6 1 2 1 4d a n 4 1m 7 2 2 2 2 a 1 a 2
    2c 9 1 1 2 1 1 4 1 2 2v d 1 3 2y i 6l 7 2 7 t 2 2a f 1 1 2y b 22 r 2 e l 7 6d d 6v 6 1 2 2 2
    3 1 1 1 3y 7 2 6 4 1 s a 16 5 1 4 i b 1a e bb 8 1 7 2b m 1 e 3e 6 3 1 1 2 1 3 1 1 3 1 1u 5 1
    2 1 4 9o 4 9 2 1 1 1c 7 3 3 d0d h 2sg 1 1 1j 7 4 2l 2 e 4qg 8 ye 15 a 6w7 4 1 7 1 2 1 83 f 1
    t 3 2 1 e 4 8 b0 1wi 1 6zl 7 1 h 2 7 1 2 1 5 2s 1 1pz 1 4hk wyo w 37e 6 66 2 4g2 e 5rl f ha
    1wi f2 15u 3t7 5 38g"))
  | "cr" => some (.ofGaps "d 1")
  | "dq" | "doublequote" => some (.ofGaps "y 1")
  | "extend" => some CharSet.attachedInWords
  | "ex" | "extendnumlet" => some (.ofGaps "2n 1 6a7 1 f 2 j 1 17tq 2 o 3 6n 1")
  | "fo" | "format" => some ((CharSet.ofCategories ["cf"]).symmDiff (.ofGaps
    "16o 6 5z 1 1d 1 ao 2 28 1 4ko 3 1bjj 1 f 1 i636 2o"))
  | "hl" | "hebrewletter" => some (.ofGaps "15c r 4 4 1cfe 1 1 a 1 d 1 5 1 1 1 2 1 2 1 a")
  | "ka" | "katakana" => some (.ofGaps
    "9ip 5 2t 2 3 2j 1 4 6o g 5s 1b 1 2g 14b2 1k ytu 4 1 7 1 2 1 1 7z 3 1e 1 e 4")
  | "lf" => some (.ofGaps "a 1")
  | "ml" | "midletter" => some (.ofGaps "1m 1 3g 1 jz 1 d3 1 44 1 56a 1 17u3 1 1t 1 5g 1")
  | "mn" | "midnum" => some (.ofGaps
    "18 1 e 1 n6 1 ei 1 3m 2 2m 1 az 1 4sr 1 17uz 1 3 1 53 1 e 1")
  | "mb" | "midnumlet" => some (.ofGaps "1a 1 6ax 2 a 1 17vx 1 50 1 6 1")
  | "nl" | "newline" => some (.ofGaps "b 2 3c 1 68y 2")
  | "nu" | "numeric" => some ((CharSet.ofCategories ["nd"]).symmDiff (.ofGaps
    "16o 6 2t 1 35 1 c2 2 28 1 3cn 1 1crm 1 f 1"))
  | "ri" | "regionalindicator" => some (.ofGaps "2qcm q")
  | "sq" | "singlequote" => some (.ofGaps "13 1")
  | "wsegspace" => some (.ofGaps "w 1 4f3 1 1vj 7 1 3 2c 1 334 1")
  | "zwj" => some (.ofGaps "6bx 1")
  | _ => none

/-- The members of the class of characters by which sentences are told. -/
def sentenceBreak? (name : String) : Option CharSet :=
  match name with
  | "at" | "aterm" => some (.ofGaps "1a 1 6b9 1 17vx 1 57 1")
  | "cr" => some (.ofGaps "d 1")
  | "cl" | "close" => some (.ofGaps
    "y 1 4 3 1d 1 1 1 t 1 1 1 19 1 f 1 2v2 4 1gd 2 1vf 8 p 2 a 2 1i 2 e 2 hl 4 t 2 ts 6 7 e 27 2
    v a b7 m 1r 4 w 2 si e e 2 2 a o 1 i 8 bv a 2 8 1 3 14im 2 5z 2 s g 2 2 g 6 4p 2 1d 1 1 1 t 1
    1 1 1 2 1 2 1csy 3")
  | "ex" | "extend" => some (CharSet.attachedInWords.symmDiff (.ofGaps
    "6bx 1 2kfh 5"))
  | "fo" | "format" => some ((CharSet.ofCategories ["cf"]).symmDiff (.ofGaps
    "16o 6 5z 1 c2 2 28 1 4kp 2 1bjj 1 f 1 i636 2o"))
  | "lf" => some (.ofGaps "a 1")
  | "lo" | "lower" => some (CharSet.lowercase.symmDiff (.ofGaps
    "n9 1 2oa 17 2 3"))
  | "nu" | "numeric" => some ((CharSet.ofCategories ["nd"]).symmDiff (.ofGaps
    "16o 6 2t 2 34 1 c2 2 28 1 3cn 1 1crm 1 f 1"))
  | "le" | "oletter" => some ((CharSet.alphabetic.diff .cased).symmDiff (.ofGaps
    "o3 d g0 e 1 1 1 2 1 2 1 1 17 1 s b 1c d 1 7 g 1 2t 7 4 4 2 2 4 1 z 1 u g 2u b 2t 2 3 9 1 3 1
    4 2y 1 1o c 3 7 6 k 1i 2 2 f 1 2 5 3 a 2 t 3 1m 7 2 2 2 2 a 1 a 2 t 3 1m 5 4 2 2 2 4 1 u 2 3
    1 b 3 1m 8 1 3 1 2 l 2 m 3 4 3 1m 7 2 2 2 2 9 2 a 2 u 1 1n 5 3 3 1 3 a 1 14 5 1l 7 1 3 1 3 8
    2 b 2 t 3 1m 7 1 3 1 3 8 2 b 2 f 1 c 4 1m 7 1 3 1 3 a 1 a 2 t 3 23 6 1 1 1 8 i 2 1p 1 2 7 i 1
    2r 1 2 6 1 2 g 1 4j j 9 b 1 10 32 c 1 1 2 4 n 4 4 3 1 3 2 7 3 4 d c 1 1 a 4 1e 17 2 3 176 2 u
    2 u 2 u 2 1u j 58 2 y 1 3a c 4 9 66 5 1l a 2 k 22 2 b 3 1d 5 1c f 1o 3 u 9 2 2 1l b 1e j 2h
    17 2 3 7n y 357 w nsk 8 y 2 9u 1 8 1 n 5 2g 2 1e g 1 1 1l 1 12 5 s c 19 4 1c c 11 1 1v e c 1
    8 2 19 3 1e 1 1 3 2 2 5 1 18 5 5 1 6l 8 fn7 1 vz 2 ra 5 1ae 3 1 2 5 4 lw 4 1t 1 8x 2 27 1 77
    3 1h e 19 2 b 3 19 9 9 1 1p 3 10 c i 2 1l 3 1c d e 2 2k 9 2 1 6 1 2 1 4d a n 4 1m 7 2 2 2 2 a
    1 a 2 2c 9 1 1 2 1 1 4 1 2 2v d 1 3 2y i 6l 7 2 7 t 2 2a f 1 1 2y b 2v e 75 d 6v 6 1 2 2 2 3
    1 1 1 3y 7 2 6 4 1 s a 16 5 1 4 i b 1a e bb 8 1 7 2b m 1 e 3e 6 3 1 1 2 1 3 1 1 3 1 1u 5 1 2
    1 4 9o 4 9 2 1 1 1c 7 3 3 d0d h 2sg 1 1 1j 7 4 2l 2 f58 1 6zl 7 1 h 2 7 1 2 1 5 2s 1 1pz 1"))
  | "sc" | "scontinue" => some (.ofGaps
    "18 2 c 2 n6 1 da 1 4u 2 dm 1 361 1 5 1 1l6 2 358 1 14pa 2 1 2 s 2 t 2 2 2 2 1 a 1 4o 2 c 2
    20 1")
  | "st" | "sterm" => some ((CharSet.listed "sentenceterminal").symmDiff (.ofGaps
    "1a 1 6b9 1 17vx 1 57 1"))
  | "se" | "sep" => some (.ofGaps "3p 1 68y 2")
  | "sp" => some (.ofGaps "9 1 1 2 j 1 3j 1 4bj 1 1vj b 10 1 1b 1 334 1")
  | "up" | "upper" => some (CharSet.uppercase.symmDiff (.ofGaps
    "cl 1 2 1 2 1 12 1 599 17 2 3 js 8 8 8 8 8 c 1 f 1 1b 1"))
  | _ => none

end ParseForest
