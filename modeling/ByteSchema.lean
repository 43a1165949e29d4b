import ByteSchema.Message
import ByteSchema.Schema.Validity
import ByteSchema.Schema.Write
import ByteSchema.Schema.Read
import ByteSchema.Schema.Outline
import ByteSchema.Proofs.ByteSpans
import ByteSchema.Proofs.CompactGroups
import ByteSchema.Proofs.Rendering
import ByteSchema.Proofs.WordBytes
import ByteSchema.Proofs.NumberImages
import ByteSchema.Proofs.HeaderImages
import ByteSchema.Proofs.SlotImages
import ByteSchema.Proofs.ItemImages
import ByteSchema.Proofs.SchemaImages
import ByteSchema.Proofs.AnnouncedLengths
import ByteSchema.Proofs.SizeAccounting
import ByteSchema.Proofs.FixedSizes
import ByteSchema.Proofs.Text.Ascii
import ByteSchema.Proofs.Text.Hexadecimal
import ByteSchema.Proofs.Text.Base64Groups
import ByteSchema.Proofs.Text.Base58Numerals
import ByteSchema.Proofs.Text.ContentBytes
import ByteSchema.Proofs.CanonicalBytes
import ByteSchema.Proofs.RoundTrips
import ByteSchema.Proofs.FaultlessReading
import ByteSchema.Proofs.ItemCounts
import ByteSchema.Proofs.SharedInput
import ByteSchema.Proofs.Truncation
import ByteSchema.Proofs.Splicing
import ByteSchema.Proofs.ConfinedSteps
import ByteSchema.Proofs.FailingWrites
import ByteSchema.Proofs.FittingImages
import ByteSchema.Proofs.Normalising
import ByteSchema.Proofs.FailureSites
import ByteSchema.Proofs.KeyedPairs
import ByteSchema.Proofs.ItemLoops
import ByteSchema.Proofs.RaisedErrors
import ByteSchema.Proofs.FailureReports
import ByteSchema.Proofs.PrecedingBytes
import ByteSchema.Proofs.Relimiting
import ByteSchema.Proofs.FramedSlots
import ByteSchema.Proofs.PairArrays
import ByteSchema.Proofs.Diagnoses
import ByteSchema.Proofs.RemainderArrays
import ByteSchema.Proofs.CompactForms
import ByteSchema.Proofs.PaddedTexts
import ByteSchema.Proofs.OwnBytes
import ByteSchema.Proofs.FixedCountMaps
import ByteSchema.Proofs.PastTheEnd
import ByteSchema.Proofs.HeaderWindows
import ByteSchema.Proofs.WordIntegers
import ByteSchema.Proofs.Floating.Values
import ByteSchema.Proofs.Floating.Nearest
import ByteSchema.Proofs.Floating.Narrowing
