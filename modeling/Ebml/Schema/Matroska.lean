import Ebml.Schema

/-!
# The Matroska schema

The elements of Matroska and WebM documents. The EBML header and the segment stand at level 0, the
segment's children at level 1, and so on down; padding and checksums are global.
-/

namespace Ebml.Matroska

/-! ## Ids that carry meaning of their own -/

/-- A stretch of media data with a common time base. -/
def clusterId : Nat := 0x1F43B675

/-- The time base of the cluster it stands in. -/
def timecodeId : Nat := 0xE7

/-- The element whose data is one media frame with its own small header. -/
def simpleBlockId : Nat := 0xA3

/-! ## Declarations -/

/-- The header every document starts with. -/
def ebmlHeaderDecls : List ElementDecl := [
  ⟨0x1A45DFA3, "EBML", 0, .master, false⟩,
  ⟨0x4286, "EBMLVersion", 1, .unsigned, false⟩,
  ⟨0x42F7, "EBMLReadVersion", 1, .unsigned, false⟩,
  ⟨0x42F2, "EBMLMaxIDLength", 1, .unsigned, false⟩,
  ⟨0x42F3, "EBMLMaxSizeLength", 1, .unsigned, false⟩,
  ⟨0x4282, "DocType", 1, .ascii, false⟩,
  ⟨0x4287, "DocTypeVersion", 1, .unsigned, false⟩,
  ⟨0x4285, "DocTypeReadVersion", 1, .unsigned, false⟩]

/-- Padding and checksums, which may stand anywhere. -/
def globalDecls : List ElementDecl := [
  ⟨0xEC, "Void", -1, .binary, false⟩,
  ⟨0xBF, "CRC-32", -1, .binary, false⟩]

/-- The root of the media data and its index of top-level elements. -/
def segmentDecls : List ElementDecl := [
  ⟨0x18538067, "Segment", 0, .master, false⟩,
  ⟨0x114D9B74, "SeekHead", 1, .master, false⟩,
  ⟨0x4DBB, "Seek", 2, .master, false⟩,
  ⟨0x53AB, "SeekID", 3, .binary, false⟩,
  ⟨0x53AC, "SeekPosition", 3, .unsigned, false⟩]

/-- Facts about the whole segment. -/
def infoDecls : List ElementDecl := [
  ⟨0x1549A966, "Info", 1, .master, false⟩,
  ⟨0x73A4, "SegmentUID", 2, .binary, false⟩,
  ⟨0x7384, "SegmentFilename", 2, .utf8, false⟩,
  ⟨0x3CB923, "PrevUID", 2, .binary, false⟩,
  ⟨0x3C83AB, "PrevFilename", 2, .utf8, false⟩,
  ⟨0x3EB923, "NextUID", 2, .binary, false⟩,
  ⟨0x3E83BB, "NextFilename", 2, .utf8, false⟩,
  ⟨0x4444, "SegmentFamily", 2, .binary, false⟩,
  ⟨0x2AD7B1, "TimecodeScale", 2, .unsigned, false⟩,
  ⟨0x4489, "Duration", 2, .float, false⟩,
  ⟨0x4461, "DateUTC", 2, .date, false⟩,
  ⟨0x7BA9, "Title", 2, .utf8, false⟩,
  ⟨0x4D80, "MuxingApp", 2, .utf8, false⟩,
  ⟨0x5741, "WritingApp", 2, .utf8, false⟩]

/-- Clusters and the media samples in them. -/
def clusterDecls : List ElementDecl := [
  ⟨clusterId, "Cluster", 1, .master, false⟩,
  ⟨timecodeId, "Timecode", 2, .unsigned, false⟩,
  ⟨0x5854, "SilentTracks", 2, .master, false⟩,
  ⟨0x58D7, "SilentTrackNumber", 3, .unsigned, false⟩,
  ⟨0xA7, "Position", 2, .unsigned, false⟩,
  ⟨0xAB, "PrevSize", 2, .unsigned, false⟩,
  ⟨simpleBlockId, "SimpleBlock", 2, .binary, false⟩,
  ⟨0xA0, "BlockGroup", 2, .master, false⟩,
  ⟨0xA1, "Block", 3, .binary, false⟩,
  ⟨0x75A1, "BlockAdditions", 3, .master, false⟩,
  ⟨0xA6, "BlockMore", 4, .master, false⟩,
  ⟨0xEE, "BlockAddID", 5, .unsigned, false⟩,
  ⟨0xA5, "BlockAdditional", 5, .binary, false⟩,
  ⟨0x9B, "BlockDuration", 3, .unsigned, false⟩,
  ⟨0xFA, "ReferencePriority", 3, .unsigned, false⟩,
  ⟨0xFB, "ReferenceBlock", 3, .integer, false⟩,
  ⟨0xA4, "CodecState", 3, .binary, false⟩,
  ⟨0x75A2, "DiscardPadding", 3, .integer, false⟩]

/-- Descriptions of the tracks. -/
def tracksDecls : List ElementDecl := [
  ⟨0x1654AE6B, "Tracks", 1, .master, false⟩,
  ⟨0xAE, "TrackEntry", 2, .master, false⟩,
  ⟨0xD7, "TrackNumber", 3, .unsigned, false⟩,
  ⟨0x73C5, "TrackUID", 3, .unsigned, false⟩,
  ⟨0x83, "TrackType", 3, .unsigned, false⟩,
  ⟨0xB9, "FlagEnabled", 3, .unsigned, false⟩,
  ⟨0x88, "FlagDefault", 3, .unsigned, false⟩,
  ⟨0x55AA, "FlagForced", 3, .unsigned, false⟩,
  ⟨0x9C, "FlagLacing", 3, .unsigned, false⟩,
  ⟨0x6DE7, "MinCache", 3, .unsigned, false⟩,
  ⟨0x6DF8, "MaxCache", 3, .unsigned, false⟩,
  ⟨0x23E383, "DefaultDuration", 3, .unsigned, false⟩,
  ⟨0x55EE, "MaxBlockAdditionID", 3, .unsigned, false⟩,
  ⟨0x536E, "Name", 3, .utf8, false⟩,
  ⟨0x22B59C, "Language", 3, .ascii, false⟩,
  ⟨0x86, "CodecID", 3, .ascii, false⟩,
  ⟨0x63A2, "CodecPrivate", 3, .binary, false⟩,
  ⟨0x258688, "CodecName", 3, .utf8, false⟩,
  ⟨0x56AA, "CodecDelay", 3, .unsigned, false⟩,
  ⟨0x56BB, "SeekPreRoll", 3, .unsigned, false⟩,
  ⟨0xE0, "Video", 3, .master, false⟩,
  ⟨0x9A, "FlagInterlaced", 4, .unsigned, false⟩,
  ⟨0xB0, "PixelWidth", 4, .unsigned, false⟩,
  ⟨0xBA, "PixelHeight", 4, .unsigned, false⟩,
  ⟨0x54AA, "PixelCropBottom", 4, .unsigned, false⟩,
  ⟨0x54BB, "PixelCropTop", 4, .unsigned, false⟩,
  ⟨0x54CC, "PixelCropLeft", 4, .unsigned, false⟩,
  ⟨0x54DD, "PixelCropRight", 4, .unsigned, false⟩,
  ⟨0x54B0, "DisplayWidth", 4, .unsigned, false⟩,
  ⟨0x54BA, "DisplayHeight", 4, .unsigned, false⟩,
  ⟨0x54B2, "DisplayUnit", 4, .unsigned, false⟩,
  ⟨0x54B3, "AspectRatioType", 4, .unsigned, false⟩,
  ⟨0x2383E3, "FrameRate", 4, .float, false⟩,
  ⟨0xE1, "Audio", 3, .master, false⟩,
  ⟨0xB5, "SamplingFrequency", 4, .float, false⟩,
  ⟨0x78B5, "OutputSamplingFrequency", 4, .float, false⟩,
  ⟨0x9F, "Channels", 4, .unsigned, false⟩,
  ⟨0x6264, "BitDepth", 4, .unsigned, false⟩]

/-- The seek index. -/
def cuesDecls : List ElementDecl := [
  ⟨0x1C53BB6B, "Cues", 1, .master, false⟩,
  ⟨0xBB, "CuePoint", 2, .master, false⟩,
  ⟨0xB3, "CueTime", 3, .unsigned, false⟩,
  ⟨0xB7, "CueTrackPositions", 3, .master, false⟩,
  ⟨0xF7, "CueTrack", 4, .unsigned, false⟩,
  ⟨0xF1, "CueClusterPosition", 4, .unsigned, false⟩,
  ⟨0xF0, "CueRelativePosition", 4, .unsigned, false⟩,
  ⟨0xB2, "CueDuration", 4, .unsigned, false⟩,
  ⟨0x5378, "CueBlockNumber", 4, .unsigned, false⟩]

/-- Attached files. -/
def attachmentsDecls : List ElementDecl := [
  ⟨0x1941A469, "Attachments", 1, .master, false⟩,
  ⟨0x61A7, "AttachedFile", 2, .master, false⟩,
  ⟨0x467E, "FileDescription", 3, .utf8, false⟩,
  ⟨0x466E, "FileName", 3, .utf8, false⟩,
  ⟨0x4660, "FileMimeType", 3, .ascii, false⟩,
  ⟨0x465C, "FileData", 3, .binary, false⟩,
  ⟨0x46AE, "FileUID", 3, .unsigned, false⟩]

/-- Chapters, whose atoms nest. -/
def chaptersDecls : List ElementDecl := [
  ⟨0x1043A770, "Chapters", 1, .master, false⟩,
  ⟨0x45B9, "EditionEntry", 2, .master, false⟩,
  ⟨0x45BC, "EditionUID", 3, .unsigned, false⟩,
  ⟨0x45BD, "EditionFlagHidden", 3, .unsigned, false⟩,
  ⟨0x45DB, "EditionFlagDefault", 3, .unsigned, false⟩,
  ⟨0x45DD, "EditionFlagOrdered", 3, .unsigned, false⟩,
  ⟨0xB6, "ChapterAtom", 3, .master, true⟩,
  ⟨0x73C4, "ChapterUID", 4, .unsigned, false⟩,
  ⟨0x5654, "ChapterStringUID", 4, .utf8, false⟩,
  ⟨0x91, "ChapterTimeStart", 4, .unsigned, false⟩,
  ⟨0x92, "ChapterTimeEnd", 4, .unsigned, false⟩,
  ⟨0x98, "ChapterFlagHidden", 4, .unsigned, false⟩,
  ⟨0x4598, "ChapterFlagEnabled", 4, .unsigned, false⟩,
  ⟨0x80, "ChapterDisplay", 4, .master, false⟩,
  ⟨0x85, "ChapString", 5, .utf8, false⟩,
  ⟨0x437C, "ChapLanguage", 5, .ascii, false⟩,
  ⟨0x437E, "ChapCountry", 5, .ascii, false⟩]

/-- Tags, whose simple tags nest. -/
def tagsDecls : List ElementDecl := [
  ⟨0x1254C367, "Tags", 1, .master, false⟩,
  ⟨0x7373, "Tag", 2, .master, false⟩,
  ⟨0x63C0, "Targets", 3, .master, false⟩,
  ⟨0x68CA, "TargetTypeValue", 4, .unsigned, false⟩,
  ⟨0x63CA, "TargetType", 4, .ascii, false⟩,
  ⟨0x63C5, "TagTrackUID", 4, .unsigned, false⟩,
  ⟨0x63C9, "TagEditionUID", 4, .unsigned, false⟩,
  ⟨0x63C4, "TagChapterUID", 4, .unsigned, false⟩,
  ⟨0x63C6, "TagAttachmentUID", 4, .unsigned, false⟩,
  ⟨0x67C8, "SimpleTag", 3, .master, true⟩,
  ⟨0x45A3, "TagName", 4, .utf8, false⟩,
  ⟨0x447A, "TagLanguage", 4, .ascii, false⟩,
  ⟨0x4484, "TagDefault", 4, .unsigned, false⟩,
  ⟨0x4487, "TagString", 4, .utf8, false⟩,
  ⟨0x4485, "TagBinary", 4, .binary, false⟩]

/-- All declarations, part by part. -/
def decls : List ElementDecl :=
  ebmlHeaderDecls ++ globalDecls ++ segmentDecls ++ infoDecls ++ clusterDecls ++
    tracksDecls ++ cuesDecls ++ attachmentsDecls ++ chaptersDecls ++ tagsDecls

/-- The Matroska schema. -/
def schema : Schema where
  decls := decls
  distinct := by decide +kernel

end Ebml.Matroska
