import Fingerprint.Function.Call
import Fingerprint.Function.Selected
import Fingerprint.Function.Held
import Fingerprint.Plan.Reads
import Fingerprint.Summary
import Fingerprint.WriteOnce
import Fingerprint.Proofs.Reads.Loops
import Fingerprint.Proofs.Reads.CityHash
import Fingerprint.Proofs.Reads.FarmHash
import Fingerprint.Proofs.Reads.MurmurHash
import Fingerprint.Proofs.Reads.XXHash
import Fingerprint.Proofs.Reads.MetroHash
import Fingerprint.Proofs.Reads.WyHash
import Fingerprint.Proofs.Reads.XXH3.Mix
import Fingerprint.Proofs.Reads.XXH3.Long
import Fingerprint.Proofs.Reads.XXH3.Narrow
import Fingerprint.Proofs.Reads.XXH3.Wide
import Fingerprint.Proofs.Lawful.Basic
import Fingerprint.Proofs.Lawful.Memory
import Fingerprint.Proofs.Lawful.Readers
import Fingerprint.Proofs.Reads.Functions
import Fingerprint.Proofs.Digest
import Fingerprint.Proofs.Delegation
import Fingerprint.Proofs.Everywhere
import Fingerprint.Proofs.Forms
import Fingerprint.Proofs.Texts
import Fingerprint.Proofs.Routes
import Fingerprint.Proofs.Runs.Loops
import Fingerprint.Proofs.Runs.Courses
import Fingerprint.Proofs.Runs.MurmurHash
import Fingerprint.Proofs.Values.Image
import Fingerprint.Proofs.Values.Shortcuts
import Fingerprint.Proofs.Values.Functions
import Fingerprint.Proofs.Writing
import Fingerprint.Proofs.Windows
import Fingerprint.Proofs.Publication
import Fingerprint.Proofs.Injective.Images
import Fingerprint.Proofs.Injective.Words
import Fingerprint.Proofs.Injective.Rotations
import Fingerprint.Proofs.Injective.Folds
import Fingerprint.Proofs.Runs.XXHash
import Fingerprint.Proofs.Injective.XXHash
import Fingerprint.Proofs.Injective.XXH3.Mix
import Fingerprint.Proofs.Injective.XXH3.Narrow
import Fingerprint.Proofs.Injective.XXH3.Wide
import Fingerprint.Proofs.Runs.MurmurBlocks
import Fingerprint.Proofs.Injective.MurmurHash
import Fingerprint.Proofs.Injective.Seeds
import Fingerprint.Proofs.Runs.XXH3.Stripes
import Fingerprint.Proofs.Values.Calls
import Fingerprint.Proofs.Injective.SeedPaths
import Fingerprint.Proofs.Coarse
import Fingerprint.Proofs.Products
import Fingerprint.Proofs.EqualFolds
import Fingerprint.Proofs.Copies
import Fingerprint.Proofs.Runs.WyHash
import Fingerprint.Proofs.Heeds.Basic
import Fingerprint.Proofs.Heeds.Mixes
import Fingerprint.Proofs.Heeds.Short
import Fingerprint.Proofs.Heeds.Long
import Fingerprint.Proofs.Heeds.Mixed
import Fingerprint.Proofs.Heeds.Halves
import Fingerprint.Proofs.Heeds.Few
import Fingerprint.Proofs.Heeds.WyHash
import Fingerprint.Proofs.Definitions.Rows
import Fingerprint.Proofs.Definitions.MurmurHash
import Fingerprint.Proofs.Definitions.XXHash
import Fingerprint.Proofs.Agreement
import Fingerprint.Proofs.Storage
import Fingerprint.Proofs.Selection
import Fingerprint.Proofs.Settings
import Fingerprint.Proofs.Secrets
import Fingerprint.Proofs.Schedules
