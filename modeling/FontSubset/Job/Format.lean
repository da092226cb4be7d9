import FontSubset.Error

/-!
# Written jobs

A job is written down as a record of named members, of which only the font must be given. How
records are spelled is left to a `JobFormat`.
-/

namespace FontSubset

/-- The names of the members of a job and of its options. -/
structure JobKeys where
  font : String
  text : String
  glyphs : String
  asSubset : String
  options : String
  characterMap : String
  extended : String

/-- The options that are given. -/
structure OptionFields where
  characterMap : Option Bool
  extended : Option Bool

/-- The members of a job that are given. -/
structure JobFields where
  font : String
  text : Option String
  glyphs : Option (List GlyphId)
  asSubset : Option Bool
  options : Option OptionFields

/-- A spelling of jobs. -/
class JobFormat where
  /-- The members that a text gives, or what is wrong with it, with a description. -/
  read (keys : JobKeys) (text : String) : Except (JobFault × String) JobFields
  write (keys : JobKeys) (fields : JobFields) : String

end FontSubset
